import UniformAccess.Proofs.Printing.Respaced
/-!
# Where a tree with room in it is written

The pens that write a tree and the tree with room in it part at two places: at the end of a class with room, and where
a child is put in. Behind both they are in step again (`carried_owner`, `inStep_kids`), so every kept node is written
where the room has moved it (`layout_meets`).
-/
namespace UniformAccess

open Pen Script

namespace Tree

variable {t t' : Tree} {x y c : NodeId} {node : Node} {s : Span} {q : Pos} {items : List Item}
  {front back : List Event} {exact : Prop} {r : Room} {K C : NodeId → Prop} {keep : NodeId → Bool} {p p' : Pen}

@[simp]
theorem heeds_classHead (d : ClassDecl) : Heeds t (classHead t d) := by simp [classHead]

/-- After the opening brace no node waits. -/
theorem pending_classHead (d : ClassDecl) (p : Pen) : (p.run (t.eventsOf (classHead t d))).pending = [] := by
  have hopen : ∀ p : Pen, p.run (t.eventsOf (openingBrace d.lbrace)) =
      ((p.sep d.lbrace.start?).stroke (.goto d.lbrace.start?)).write "\x7b" := fun _ => rfl
  unfold classHead
  rw [eventsOf_append, run_append, hopen, pending_write _ (by decide)]

theorem mem_children_of_classHead {d : ClassDecl} (h : .child y ∈ classHead t d) :
    y ∈ (Kind.classDecl { d with members := [] }).children := by
  have hids : y ∈ childIds (classHead t d) := List.mem_filterMap.2 ⟨.child y, h, rfl⟩
  simpa [classHead, ident, openingBrace, Kind.children, Kind.slots, Slot.children] using hids

theorem kids_append {ids : List NodeId} (h : ids ≠ []) (ids' : List NodeId) :
    kids t (ids ++ ids') = kids t ids ++ separatedAll t ids' := by
  cases ids with
  | nil => exact absurd rfl h
  | cons id ids =>
    rw [List.cons_append, kids, kids, List.cons_append]
    exact congrArg _ List.flatMap_append

/-- The children of a source file end with the last. -/
theorem exists_kids_eq (ids : List NodeId) (id : NodeId) :
    ∃ items, kids t (ids ++ [id]) = items ++ [Item.child id] := by
  cases ids with
  | nil => exact ⟨[], rfl⟩
  | cons first ids =>
    refine ⟨kids t (first :: ids) ++ Script.sep (t.start? id), ?_⟩
    rw [kids_append (List.cons_ne_nil _ _), List.append_assoc]
    rfl

/-- One child more comes after a separator, if it is not the first. -/
theorem exists_eventsOf_kids (ids : List NodeId) (id : NodeId) : ∃ es,
    (es = [] ∨ es = [Event.stroke (.sep (t.start? id))]) ∧
      t.eventsOf (kids t (ids ++ [id])) = t.eventsOf (kids t ids) ++ es ++ t.events id := by
  cases ids with
  | nil =>
    refine ⟨[], .inl rfl, ?_⟩
    simp [kids, separatedAll]
  | cons first ids =>
    refine ⟨[Event.stroke (.sep (t.start? id))], .inr rfl, ?_⟩
    rw [kids_append (List.cons_ne_nil _ _), eventsOf_append]
    simp [separatedAll, separated, Script.sep]

theorem eventsOf_kids_append (ids : List NodeId) (id : NodeId) (ids' : List NodeId) :
    t.eventsOf (kids t (ids ++ id :: ids')) =
      t.eventsOf (kids t (ids ++ [id])) ++ t.eventsOf (separatedAll t ids') := by
  rw [← eventsOf_append, ← kids_append (by simp)]
  simp

@[simp]
theorem heeds_kids (ids : List NodeId) : Heeds t (kids t ids) := by
  cases ids with
  | nil => trivial
  | cons id ids => exact heeds_separatedAll ids

@[simp]
theorem childIds_kids (ids : List NodeId) : childIds (kids t ids) = ids := by
  cases ids <;> simp [kids]

theorem separatedAll_append (ids ids' : List NodeId) :
    separatedAll t (ids ++ ids') = separatedAll t ids ++ separatedAll t ids' := List.flatMap_append

theorem mem_children_root {u : UnitDecl} {x : NodeId} (hu : t.unit? = some u) :
    x ∈ t.children t.root ↔ x ∈ u.package.toList ++ u.imports ++ u.types := by
  rw [children_of_kind? (kind?_root_of_unit? hu)]
  cases hpackage : u.package <;> simp [Kind.children, Kind.slots, Slot.ofOption, Slot.children, hpackage]

/-- What is written of a source file. -/
theorem events_root {u : UnitDecl} (hp : t.Proper) (hblank : t.loc? t.root = some .synthetic) (hu : t.unit? = some u) :
    t.events t.root = [Event.stroke (.goto none), .enter t.root] ++
      t.eventsOf (kids t (u.package.toList ++ u.imports ++ u.types)) ++ [Event.leave t.root] := by
  obtain ⟨root, hroot, hloc⟩ := Option.map_eq_some_iff.1 hblank
  rw [events_eq hp.forest.acyclic hroot, hloc, Node.script_unit (kind_eq_of_kind? hroot (kind?_root_of_unit? hu))]
  rfl

/-- What is sent to a line by separated children is sent there by one of them. -/
theorem mem_eventsOf_separatedAll {ids : List NodeId} {e : Event} (h : e ∈ t.eventsOf (separatedAll t ids)) :
    (∃ next, e = .stroke (.sep next)) ∨ ∃ m ∈ ids, e ∈ t.events m := by
  induction ids with
  | nil => cases h
  | cons m ids ih =>
    rw [show separatedAll t (m :: ids) = separated t m ++ separatedAll t ids from rfl, eventsOf_append] at h
    rcases List.mem_append.1 h with h | h
    · rcases List.mem_cons.1 h with h | h
      · exact .inl ⟨_, h⟩
      · exact .inr ⟨m, List.mem_cons_self, by simpa [itemEvents] using h⟩
    · rcases ih h with h | ⟨m', hm', h⟩
      · exact .inl h
      · exact .inr ⟨m', List.mem_cons_of_mem _ hm', h⟩

end Tree

namespace Pen

variable {t t' : Tree} {exact : Prop} {r : Room} {K : NodeId → Prop} {p p' : Pen} {stop : Pos}

/-- **The closing brace is written where the class stops**, whatever was written on the lines above. -/
theorem pos_closingBrace (hline : p.pos.line < stop.line) (hcol : 1 < stop.col) :
    (p.run (t.eventsOf (closingBrace (some stop)))).pos = stop := by
  have hcol' : 1 ≤ (stop.left 1).col := by
    rw [Pos.col_left]
    omega
  have hlt : p.pos < stop.left 1 := .inl hline
  have hclosing : closingPos "\x7d" (some stop) = some (stop.left 1) := rfl
  have hrun : p.run (t.eventsOf (closingBrace (some stop))) =
      ((p.sep (some (stop.left 1))).goto (stop.left 1)).write "\x7d" := by
    rw [← hclosing]
    rfl
  have hlead : ((p.sep (some (stop.left 1))).goto (stop.left 1)).lead "\x7d" = 0 := by
    unfold lead joins
    rw [show ("\x7d".toList.head?.any isIdentChar) = false by decide, Bool.and_false]
    rfl
  rw [hrun, pos_write _ (by decide), hlead, sep_of_le hlt.le, pos_goto _ hcol', max_eq_right hlt.le]
  refine Pos.ext rfl ?_
  show stop.col - 1 + 1 = stop.col
  omega

theorem last_closingBrace (stop : Option Pos) (p : Pen) :
    (p.run (t.eventsOf (closingBrace stop))).last = some '\x7d' := by
  have hrun : p.run (t.eventsOf (closingBrace stop)) =
      ((p.sep (closingPos "\x7d" stop)).stroke (.goto (closingPos "\x7d" stop))).write "\x7d" := rfl
  rw [hrun, last_write _ (by decide)]
  decide

end Pen

namespace Tree.Respaced

variable {t t' : Tree} {x y c : NodeId} {node : Node} {s : Span} {q : Pos} {items : List Item}
  {front back : List Event} {exact : Prop} {r : Room} {K C : NodeId → Prop} {keep : NodeId → Bool} {p p' : Pen}
  {u : UnitDecl} {extra : Option NodeId} (h : Respaced exact r K C keep t t' u extra)
include h

/-! ## The end of a class -/

/-- After items that end with a child the pen is where the child stops. -/
theorem stop?_last {m : NodeId} (hm : t.contains m = true ∧ m ≠ t.root)
    (hL : t.events t.root = front ++ t.eventsOf (items ++ [Item.child m]) ++ back) :
    t.stop? m = some (after (front ++ t.eventsOf (items ++ [Item.child m]))).pos := by
  obtain ⟨node, hnode⟩ := contains_iff.1 hm.1
  obtain ⟨s, hs⟩ := h.placed.span_of_ne hnode hm.2
  have hsplit : front ++ t.eventsOf (items ++ [Item.child m]) = (front ++ t.eventsOf items) ++ t.events m := by
    rw [eventsOf_append]
    simp
  rw [hsplit] at hL ⊢
  rw [stop?_of_span hnode hs, (h.placed.at_node h.proper hnode hs hm.2 hL).2.2.2]

/-- After some members the pen is where the last of them stops. -/
theorem exists_stop_members {ms : List NodeId} (hne : ms ≠ []) (hms : ∀ m ∈ ms, t.contains m = true ∧ m ≠ t.root)
    (hL : t.events t.root = front ++ t.eventsOf (separatedAll t ms) ++ back) :
    ∃ m ∈ ms, t.stop? m = some (after (front ++ t.eventsOf (separatedAll t ms))).pos := by
  obtain ⟨others, m, rfl⟩ := (List.eq_nil_or_concat ms).resolve_left hne
  rw [List.concat_eq_append] at *
  have hm : m ∈ others ++ [m] := List.mem_append_right _ List.mem_cons_self
  have hlast : separatedAll t (others ++ [m]) =
      (separatedAll t others ++ Script.sep (t.start? m)) ++ [Item.child m] := by
    rw [separatedAll_append, List.append_assoc]
    rfl
  rw [hlast] at hL ⊢
  exact ⟨m, hm, h.stop?_last (hms m hm) hL⟩

/-- **New members are written above the line on which the class stops.** -/
theorem run_new {d : ClassDecl} {new : List NodeId} (hopen : Reopened r K keep t t' s d new)
    (hagree : Agree exact r K p p') (hpend : ∀ y, K y → y ∉ p.pending) (hline : p'.pos.line < (r.move s.stop).line) :
    Agree exact r K p (p'.run (t'.eventsOf (separatedAll t' new))) ∧
      (p'.run (t'.eventsOf (separatedAll t' new))).pos.line < (r.move s.stop).line := by
  constructor
  · refine hagree.run_right hpend fun y hy => ⟨fun hmem => ?_, fun hmem => ?_⟩
    · rcases mem_eventsOf_separatedAll hmem with ⟨next, hnext⟩ | ⟨m, hm, hmem⟩
      · cases hnext
      · obtain ⟨hmc, -, hapart⟩ := hopen.added m hm
        exact hapart y hy ((enter_mem_events h.proper'.forest hmc).1 hmem)
    · rcases mem_eventsOf_separatedAll hmem with ⟨next, hnext⟩ | ⟨m, hm, hmem⟩
      · cases hnext
      · obtain ⟨hmc, -, hapart⟩ := hopen.added m hm
        exact hapart y hy ((leave_mem_events h.proper'.forest hmc).1 hmem)
  · have hsent : ∀ q, .stroke (.goto (some q)) ∈ t'.eventsOf (separatedAll t' new) →
        q.line ≤ (r.move s.stop).line - 1 := fun q hq => by
      rcases mem_eventsOf_separatedAll hq with ⟨next, hnext⟩ | ⟨m, hm, hmem⟩
      · cases hnext
      · exact (hopen.added m hm).2.1.line_le hmem
    have hle := line_run_le hsent (Nat.le_sub_one_of_lt hline)
    omega

/-- **Up to the opening brace of a class with room both pens do the same.** -/
theorem inStep_classHead {d : ClassDecl} {new : List NodeId} (hd : t.kind? c = some (.classDecl d))
    (hopen : Reopened r K keep t t' s d new) (ih : ∀ y ∈ t.children c, K y → Carried exact r K t t' y)
    (hback : ∀ c rest, C c → back ≠ .leave c :: rest)
    (hL : t.events t.root = front ++ t.eventsOf (classHead t d) ++ back)
    (hp : InStep exact r K (after front) p') : InStep exact r K (after (front ++ t.eventsOf (classHead t d)))
      (p'.run (t'.eventsOf (classHead t' (reopen r keep d new)))) := by
  have hmoved : classHead t' (reopen r keep d new) = (classHead t d).map (Item.moved r.move) :=
    moved_classHead fun y hy => h.follows (hopen.head y hy)
  rw [hmoved]
  refine h.inStep_items (heeds_classHead d) (fun y hy => ?_) hback hL hp
  have hy := mem_children_of_classHead hy
  refine ⟨hopen.head y hy, ih y ?_ (hopen.head y hy)⟩
  rw [children_of_kind? hd]
  simp only [Kind.children, Kind.slots, Slot.children, List.flatMap_cons, List.flatMap_nil, List.append_nil,
    ← List.append_assoc] at hy ⊢
  exact List.mem_append_left _ hy

omit h in
/-- **Behind the closing brace the pens are in step again**, if they agreed before it. -/
theorem inStep_closingBrace (hagree : Agree exact r K (after front) p') (hpend : ∀ y, K y → y ∉ (after front).pending)
    (hend : q = (after (front ++ t.eventsOf (closingBrace (some q)))).pos) (hline : p'.pos.line < (r.move q).line)
    (hcol : 1 < q.col) : InStep exact r K (after (front ++ t.eventsOf (closingBrace (some q))))
      (p'.run (t'.eventsOf (closingBrace (some (r.move q))))) := by
  have hstrokes : ∀ (t : Tree) (stop : Option Pos) (y : NodeId), K y →
      .enter y ∉ t.eventsOf (closingBrace stop) ∧ .leave y ∉ t.eventsOf (closingBrace stop) := fun t stop y _ => by
    simp [closingBrace, closing, writeAt, Script.sep]
  refine ⟨?_, ?_, fun _ => .inl ?_⟩
  · rw [after_append]
    exact (hagree.run_right hpend (hstrokes t' _)).run_left hpend (hstrokes t _)
  · rw [← hend, pos_closingBrace hline hcol]
    exact .move _
  · rw [after_append, last_closingBrace, last_closingBrace]

/-- **A class after which room is made.** -/
theorem carried_owner (hc : C c) (ih : ∀ y ∈ t.children c, K y → Carried exact r K t t' y) :
    Carried exact r K t t' c := by
  have hK := h.owns c hc
  obtain ⟨hcc, hne⟩ := h.survives c hK
  obtain ⟨node, hnode⟩ := contains_iff.1 hcc
  obtain ⟨s, hs⟩ := h.placed.span_of_ne hnode hne
  obtain ⟨node', hnode', hloc⟩ := h.loc_eq c node hK hnode
  obtain ⟨d, hd⟩ := h.room.classes c hc
  have hkind := kind_eq_of_kind? hnode hd
  obtain ⟨new, hkind', hopen⟩ := h.owner c node node' s d hc hnode hnode' hs hkind
  have hmember : ∀ m ∈ d.members, m ∈ t.children c := fun m hm => by
    rw [children_of_kind? hd]
    simp [Kind.children, Kind.slots, Slot.children, hm]
  have hmc : ∀ m ∈ d.members, t.contains m = true ∧ m ≠ t.root := fun m hm => by
    refine ⟨h.proper.contained c m (hmember m hm), ?_⟩
    rintro rfl
    exact h.proper.forest.free c _ (hmember _ hm) List.mem_cons_self
  have hstop : node.loc.stop? = some s.stop := by
    rw [hs]
    rfl
  have hstop' : node'.loc.stop? = some (r.move s.stop) := by
    rw [hloc, hs]
    rfl
  have hclose : node.kind.closer? = some "\x7d" := by
    rw [hkind]
    rfl
  refine h.carried_of_script hK hnode hnode' fun front back p' hL hend hp => ?_
  rw [hstop] at hend
  rw [Node.script_classDecl hkind, hstop, eventsOf_append, eventsOf_append, ← List.append_assoc, ← List.append_assoc]
    at hend ⊢
  rw [Node.script_classDecl hkind', hstop', eventsOf_append, eventsOf_append]
  have hbody : t.events t.root = (front ++ t.eventsOf (classHead t d)) ++ t.eventsOf (separatedAll t d.members) ++
      (t.eventsOf (closingBrace (some s.stop)) ++ Event.leave c :: back) := by
    rw [hL, Node.script_classDecl hkind, hstop, eventsOf_append, eventsOf_append]
    simp only [List.append_assoc]
  have hhead : t.events t.root = front ++ t.eventsOf (classHead t d) ++
      (t.eventsOf (separatedAll t d.members) ++
        (t.eventsOf (closingBrace (some s.stop)) ++ Event.leave c :: back)) := by
    rw [hbody]
    simp only [List.append_assoc]
  have hin := h.inStep_classHead hd hopen ih (fun c' rest _ => ?_) hhead hp
  · have hpend : ∀ y, K y → y ∉ (after (front ++ t.eventsOf (classHead t d))).pending := fun y _ => by
      rw [after_append, pending_classHead]
      exact List.not_mem_nil
    have hkept : ∀ m ∈ d.members, keep m = true → K m ∧ Carried exact r K t t' m := fun m hm hkm =>
      ⟨hopen.kept m hm hkm, ih m (hmember m hm) (hopen.kept m hm hkm)⟩
    obtain ⟨hpend', hready⟩ := h.ready_members hmc hkept hopen.dropped hbody hpend (hin.ready (le_refl _))
    -- the last member stops above the line on which the class does, and so do the new ones
    obtain ⟨m, hm, hmstop⟩ := h.exists_stop_members hopen.some_member hmc hbody
    have hline := Nat.lt_of_le_of_lt hready.line_le (hopen.gap m hm _ hmstop)
    obtain ⟨hagree, hline'⟩ := h.run_new hopen hready.agree hpend' hline
    rw [show (reopen r keep d new).members = d.members.filter keep ++ new from rfl, separatedAll_append,
      eventsOf_append, run_append, run_append, run_append]
    exact inStep_closingBrace hagree hpend' (Option.some.inj hend) hline'
      (h.placed.length_lt_col h.proper hnode hs hne hclose)
  · refine Exact.eventsOf_ne_leave h.proper (fun y hy => ?_) fun _ hleave => ?_
    · have hids : y ∈ childIds (separatedAll t d.members) := List.mem_filterMap.2 ⟨.child y, hy, rfl⟩
      rw [childIds_separatedAll] at hids
      exact (hmc y hids).1
    · cases hleave

/-- **Every kept node is carried**, from below. -/
theorem carried (x : NodeId) : K x → Carried exact r K t t' x := by
  induction x using h.proper.forest.acyclic.induction with
  | h x ih =>
    intro hx
    by_cases hxC : C x
    · exact h.carried_owner hxC fun y hy => ih y (.single hy)
    · refine h.carried_plain hx hxC fun y hy => ih y (.single hy) ?_
      obtain ⟨node, hnode⟩ := contains_iff.1 (h.survives x hx).1
      obtain ⟨node', hnode', -⟩ := h.loc_eq x node hx hnode
      rw [children_of_get? hnode] at hy
      exact (h.plain x node node' hx hxC hnode hnode').2.1 y hy

/-! ## The source file -/

theorem ne_root_of_owner (hc : C c) : c ≠ t.root := (h.survives c (h.owns c hc)).2

section

-- what is written of the child that is put in, with or without a separator
variable {id : NodeId} {es : List Event} (hins : Inserted exact r K t t' u id)
  (hes : ∀ e ∈ es, (∃ next, e = .stroke (.sep next)) ∨ e ∈ t'.events id) (hagree : Agree exact r K p p')
  (hpend : ∀ y, K y → y ∉ p.pending)
include hins hes hagree hpend

theorem agree_put : Agree exact r K p (p'.run es) := by
  refine hagree.run_right hpend fun y hy => ⟨fun hmem => ?_, fun hmem => ?_⟩
  · rcases hes _ hmem with ⟨next, hnext⟩ | hmem
    · cases hnext
    · exact hins.apart y hy ((enter_mem_events h.proper'.forest hins.contained).1 hmem)
  · rcases hes _ hmem with ⟨next, hnext⟩ | hmem
    · cases hnext
    · exact hins.apart y hy ((leave_mem_events h.proper'.forest hins.contained).1 hmem)

/-- **A child that is put in is written before the types.** -/
theorem ready_put {m : NodeId} (hm : m ∈ u.types) (hstart : t.start? m = some q) (hline : p'.pos.line ≤ (r.move q).line)
    (hline' : exact → p'.pos.line < (r.move q).line) : Ready exact r K q p (p'.run es) := by
  obtain ⟨bound, habove, hle, hlt⟩ := hins.fits m hm q hstart
  have hsent : ∀ q', .stroke (.goto (some q')) ∈ es → q'.line ≤ bound := fun q' hq' => by
    rcases hes _ hq' with ⟨next, hnext⟩ | hq'
    · cases hnext
    · exact habove.line_le hq'
  refine ⟨h.agree_put hins hes hagree hpend, line_run_le (fun q' hq' => (hsent q' hq').trans hle) hline,
    fun he => .inr (.inl ?_)⟩
  have hbelow := hline' he
  have hstrict : (p'.run es).pos.line ≤ (r.move q).line - 1 := line_run_le (fun q' hq' => by
    have := hsent q' hq'
    have := (hlt he).1
    omega) (by omega)
  omega

end

/-- **Separated children of the source file keep the pens in step.** -/
theorem inStep_separatedAll {ms : List NodeId} (hms : ∀ m ∈ ms, K m)
    (hL : t.events t.root = front ++ t.eventsOf (separatedAll t ms) ++ Event.leave t.root :: back)
    (hp : InStep exact r K (after front) p') : InStep exact r K (after (front ++ t.eventsOf (separatedAll t ms)))
      (p'.run (t'.eventsOf (separatedAll t' ms))) := by
  rw [moved_separatedAll fun m hm => h.follows (hms m hm)]
  refine h.inStep_items (heeds_separatedAll ms) (fun y hy => ?_) (fun c rest hc hleave => ?_) hL hp
  · have hids : y ∈ childIds (separatedAll t ms) := List.mem_filterMap.2 ⟨.child y, hy, rfl⟩
    rw [childIds_separatedAll] at hids
    exact ⟨hms y hids, h.carried y (hms y hids)⟩
  · cases hleave
    exact h.ne_root_of_owner hc rfl

/-- **From where the second pen is ready for the first type, both write the types in step.** -/
theorem inStep_types {m : NodeId} {rest : List NodeId} (hms : ∀ y ∈ m :: rest, K y) (hstart : t.start? m = some q)
    (hL : t.events t.root = front ++ t.events m ++ (t.eventsOf (separatedAll t rest) ++ Event.leave t.root :: back))
    (hp : Ready exact r K q (after front) p') :
    InStep exact r K (after (front ++ t.events m ++ t.eventsOf (separatedAll t rest)))
      (p'.run (t'.eventsOf (separatedAll t' (m :: rest)))) := by
  have hm := hms m List.mem_cons_self
  obtain ⟨node, s, hnode, hs⟩ := h.exists_span hm
  rw [start?_of_span hnode hs] at hstart
  cases hstart
  have hle := (h.placed.at_node h.proper hnode hs (h.survives m hm).2 hL).1
  have hstart' : t'.start? m = some (r.move s.start) := by
    rw [(h.follows hm).start_eq, start?_of_span hnode hs]
    rfl
  have hsep := hp.sep hle
  rw [sep_of_le hle] at hsep
  have hin := h.carried m hm front _ _ s.start hL (start?_of_span hnode hs) hsep
  have hevents : t'.eventsOf (separatedAll t' (m :: rest)) =
      .stroke (.sep (some (r.move s.start))) :: (t'.events m ++ t'.eventsOf (separatedAll t' rest)) := by
    rw [← hstart', show separatedAll t' (m :: rest) = separated t' m ++ separatedAll t' rest from rfl, eventsOf_append]
    simp [separated, Script.sep]
  have hL' : t.events t.root =
      (front ++ t.events m) ++ t.eventsOf (separatedAll t rest) ++ Event.leave t.root :: back := by
    rw [hL]
    simp only [List.append_assoc]
  rw [hevents, run_cons, run_append]
  exact h.inStep_separatedAll (fun y hy => hms y (List.mem_cons_of_mem _ hy)) hL' hin

/-- The children of the source file in front of what is put in keep the pens in step. -/
theorem inStep_kids {ids : List NodeId} (hids : ∀ y ∈ ids, K y)
    (hback : ∀ c rest, C c → back ≠ .leave c :: rest) (hL : t.events t.root = front ++ t.eventsOf (kids t ids) ++ back)
    (hp : InStep exact r K (after front) p') :
    InStep exact r K (after (front ++ t.eventsOf (kids t ids))) (p'.run (t'.eventsOf (kids t' ids))) := by
  rw [moved_kids fun y hy => h.follows (hids y hy)]
  refine h.inStep_items (heeds_kids ids) (fun y hy => ?_) hback hL hp
  have hy : y ∈ childIds (kids t ids) := List.mem_filterMap.2 ⟨.child y, hy, rfl⟩
  rw [childIds_kids] at hy
  exact ⟨hids y hy, h.carried y (hids y hy)⟩

/-- No room is made before the first position. -/
theorem before_first : r.before ⟨1, 1⟩ = 0 := by
  refine Room.before_eq_zero fun m hm => ?_
  obtain ⟨c, node, s, hc, hnode, hs, hms⟩ := h.room.points m hm
  obtain ⟨front, back, hL⟩ := exists_events_eq h.proper.forest.acyclic
    (h.proper.reached c (contains_iff.2 ⟨node, hnode⟩))
  obtain ⟨hle, -, hlt, -⟩ := h.placed.at_node h.proper hnode hs (h.ne_root_of_owner hc) hL
  rw [hms]
  exact lt_of_le_of_lt ((after_le_after [] front).trans hle) hlt

/-- Both pens begin in step. -/
theorem inStep_begin : InStep exact r K (after [Event.stroke (.goto none), .enter t.root])
    (after [Event.stroke (.goto none), .enter t.root]) := by
  refine ⟨⟨fun y _ => Iff.rfl, fun y _ => .none, fun y _ => .none⟩, ⟨?_, fun _ => rfl⟩, fun _ => .inl rfl⟩
  exact (Nat.add_zero 1).symm.trans (congrArg (1 + ·) h.before_first.symm)

/-- The header stops on a line above the first type. -/
theorem line_header_lt {id m : NodeId} {header : List NodeId} (he : exact) (hins : Inserted exact r K t t' u id)
    (hheader : header = u.package.toList ++ u.imports) (hkept : ∀ y ∈ header, K y) (hm : m ∈ u.types)
    (hstart : t.start? m = some q) (hL : t.events t.root = front ++ t.eventsOf (kids t header) ++ back) :
    (after (front ++ t.eventsOf (kids t header))).pos.line < q.line := by
  obtain ⟨others, last, hlast⟩ := (List.eq_nil_or_concat header).resolve_left (hheader ▸ hins.header he)
  rw [List.concat_eq_append] at hlast
  have hmem : last ∈ header := by
    rw [hlast]
    exact List.mem_append_right _ List.mem_cons_self
  obtain ⟨items, hitems⟩ := exists_kids_eq (t := t) others last
  rw [← hlast] at hitems
  have hstop : t.stop? last = some (after (front ++ t.eventsOf (kids t header))).pos := by
    rw [hitems] at hL ⊢
    exact h.stop?_last (h.survives last (hkept last hmem)) hL
  obtain ⟨bound, -, -, hfits⟩ := hins.fits m hm q hstart
  exact (hfits he).2 last (hheader ▸ hmem) _ hstop

/-- **Behind a child that is put in, the pens agree.** -/
theorem agree_inserted {id : NodeId} {header types : List NodeId} (hins : Inserted exact r K t t' u id)
    (hheader : header = u.package.toList ++ u.imports) (htypes : types = u.types) (hids : ∀ y ∈ header ++ types, K y)
    (hfront : after front = after [Event.stroke (.goto none), .enter t.root])
    (hL : t.events t.root = front ++ t.eventsOf (kids t (header ++ types)) ++ [Event.leave t.root]) :
    Agree exact r K (after (front ++ t.eventsOf (kids t (header ++ types))))
      ((after front).run (t'.eventsOf (kids t' (header ++ id :: types)))) := by
  have hbegin : InStep exact r K (after front) (after front) := by
    rw [hfront]
    exact h.inStep_begin
  have hpend : ∀ y, K y → y ∉ (after (front ++ t.eventsOf (kids t header))).pending := fun y hy hyp => by
    rw [after_append] at hyp
    have hroot := pending_eventsOf (fun z _ => pending_events h.proper.forest.acyclic z) _ hyp
    rw [hfront] at hroot
    exact (h.survives y hy).2 (List.mem_singleton.1 hroot)
  have hkept : ∀ y ∈ header, K y := fun y hy => hids y (List.mem_append_left _ hy)
  obtain ⟨es', hes', hput⟩ := exists_eventsOf_kids (t := t') header id
  have hput' : ∀ e ∈ es' ++ t'.events id, (∃ next, e = .stroke (.sep next)) ∨ e ∈ t'.events id := fun e he => by
    refine (List.mem_append.1 he).imp_left fun he => ?_
    rcases hes' with rfl | rfl
    · cases he
    · exact ⟨_, List.mem_singleton.1 he⟩
  have hrun : (after front).run (t'.eventsOf (kids t' (header ++ id :: types))) =
      (((after front).run (t'.eventsOf (kids t' header))).run (es' ++ t'.events id)).run
        (t'.eventsOf (separatedAll t' types)) := by
    rw [eventsOf_kids_append, hput, ← run_append, ← run_append]
    simp only [List.append_assoc]
  rw [hrun]
  cases types with
  | nil =>
    rw [List.append_nil] at hL ⊢
    rw [show t'.eventsOf (separatedAll t' []) = [] from rfl, run_nil]
    have hin := h.inStep_kids hkept (fun c rest hc hleave => ?_) hL hbegin
    · exact h.agree_put hins hput' hin.agree hpend
    · cases hleave
      exact h.ne_root_of_owner hc rfl
  | cons m rest =>
    obtain ⟨es, hes, hfirst⟩ := exists_eventsOf_kids (t := t) header m
    rw [eventsOf_kids_append, hfirst] at hL ⊢
    have hm := hids m (List.mem_append_right _ List.mem_cons_self)
    obtain ⟨node, s, hnode, hs⟩ := h.exists_span hm
    have hstart := start?_of_span hnode hs
    have hL₁ : t.events t.root = front ++ t.eventsOf (kids t header) ++
        (es ++ t.events m ++ t.eventsOf (separatedAll t rest) ++ [Event.leave t.root]) := by
      rw [hL]
      simp only [List.append_assoc]
    have hL₂ : t.events t.root = (front ++ t.eventsOf (kids t header) ++ es) ++ t.events m ++
        (t.eventsOf (separatedAll t rest) ++ [Event.leave t.root]) := by
      rw [hL]
      simp only [List.append_assoc]
    have hin := h.inStep_kids hkept (fun c rest _ => ?_) hL₁ hbegin
    · have hle := (after_le_after _ es).trans (h.placed.at_node h.proper hnode hs (h.survives m hm).2 hL₂).1
      have hready := h.ready_put hins hput' hin.agree hpend (htypes ▸ List.mem_cons_self) hstart
        (hin.ready hle).line_le fun he => ?_
      · -- the separator before the first type leaves no space
        have hsame : after (front ++ t.eventsOf (kids t header) ++ es) =
            after (front ++ t.eventsOf (kids t header)) := by
          rcases hes with rfl | rfl
          · rw [List.append_nil]
          · rw [after_append, hstart]
            exact sep_of_le hle
        rw [← hsame] at hready
        have hrest := h.inStep_types (fun y hy => hids y (List.mem_append_right _ hy)) hstart hL₂ hready
        have hsplit : front ++ (t.eventsOf (kids t header) ++ es ++ t.events m ++ t.eventsOf (separatedAll t rest)) =
            front ++ t.eventsOf (kids t header) ++ es ++ t.events m ++ t.eventsOf (separatedAll t rest) := by
          simp only [List.append_assoc]
        rw [hsplit]
        exact hrest.agree
      · have hlow := h.line_header_lt he hins hheader hkept (htypes ▸ List.mem_cons_self) hstart hL₁
        have hbefore := r.before_mono hle
        rw [hin.pos.1, Room.line_move]
        omega
    · rcases hes with rfl | rfl
      · rw [List.nil_append, events_eq h.proper.forest.acyclic hnode]
        exact nofun
      · intro hleave
        cases hleave

/-- **Once all children of the source file are written, the pens agree.** -/
theorem agree_kids (hfront : after front = after [Event.stroke (.goto none), .enter t.root])
    (hL : t.events t.root =
      front ++ t.eventsOf (kids t (u.package.toList ++ u.imports ++ u.types)) ++ [Event.leave t.root]) :
    Agree exact r K (after (front ++ t.eventsOf (kids t (u.package.toList ++ u.imports ++ u.types))))
      ((after front).run (t'.eventsOf (kids t' (u.package.toList ++ (u.imports ++ extra.toList) ++ u.types)))) := by
  have hids : ∀ y ∈ u.package.toList ++ u.imports ++ u.types, K y :=
    fun y hy => h.top y ((mem_children_root h.unit).2 hy)
  cases hextra : extra with
  | none =>
    rw [Option.toList_none, List.append_nil]
    refine (h.inStep_kids hids (fun c rest hc hleave => ?_) hL ?_).agree
    · cases hleave
      exact h.ne_root_of_owner hc rfl
    · rw [hfront]
      exact h.inStep_begin
  | some id =>
    have hagree := h.agree_inserted (h.inserted id hextra) rfl rfl hids hfront hL
    rw [Option.toList_some, ← List.append_assoc, List.append_assoc _ [id]]
    exact hagree

/-- **Every kept node is written where the room has moved it**, or at least on those lines. -/
theorem layout_meets (hx : K x) (hnode : t.get? x = some node) (hs : node.loc = .span s) :
    ∃ s', t'.print.layout.get? x = some s' ∧ r.Meets exact s.start s'.start ∧ r.Meets exact s.stop s'.stop := by
  have hne := (h.survives x hx).2
  have hsplit := events_root h.proper h.blank h.unit
  have hsplit' := events_root h.proper' h.blank' h.unit'
  have hagree := (h.agree_kids rfl hsplit).layout x hx
  -- leaving the source file does not count
  have hlast : ∀ p : Pen, (p.run [Event.leave t.root]).layout.get? x = p.layout.get? x := fun p =>
    layout_step_of_ne fun hleave => hne (Event.leave.inj hleave).symm
  have hlayout : t.print.layout.get? x = (after ([Event.stroke (.goto none), .enter t.root] ++
      t.eventsOf (kids t (u.package.toList ++ u.imports ++ u.types)))).layout.get? x := by
    rw [← hlast, ← after_append, ← hsplit]
    rfl
  have hlayout' : t'.print.layout.get? x = ((after [Event.stroke (.goto none), .enter t.root]).run
      (t'.eventsOf (kids t' (u.package.toList ++ (u.imports ++ extra.toList) ++ u.types)))).layout.get? x := by
    rw [← hlast, ← after_append, ← after_append]
    show (after (t'.events t'.root)).layout.get? x = _
    rw [hsplit', h.root_eq]
  obtain ⟨s₀, hs₀, hprinted⟩ := h.placed.layout x node hnode hne
  obtain rfl : s = s₀ := Loc.span.inj (hs.symm.trans hs₀)
  rw [← hlayout, ← hlayout', hprinted] at hagree
  cases hcase : t'.print.layout.get? x with
  | none =>
    rw [hcase] at hagree
    cases hagree
  | some s' =>
    rw [hcase] at hagree
    cases hagree with
    | some hmeets => exact ⟨s', rfl, hmeets⟩

end Tree.Respaced

end UniformAccess
