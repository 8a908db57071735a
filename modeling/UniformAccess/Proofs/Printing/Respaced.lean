import UniformAccess.Proofs.Printing.Passing
/-!
# A tree with room in it

Room is made at the ends of some classes, to put new members there in the place of others (`Reopened`), and one more
child may come into the source file. Then what is kept of the tree is written where the room has moved it
(`Respaced.agree`): the two trees are written side by side, node by node from below, and the pens are in step wherever a
kept node is entered or left.
-/
namespace UniformAccess

open Pen Script

namespace Tree

variable {t t' : Tree} {x y c : NodeId} {node : Node} {s : Span} {q : Pos} {items : List Item}
  {front back : List Event} {exact : Prop} {r : Room} {K C : NodeId → Prop} {keep : NodeId → Bool} {p' : Pen}

/-! ## Nodes that wait -/

/-- If children leave no node waiting, neither do the items that bring them. -/
theorem pending_eventsOf (hitems : ∀ y, .child y ∈ items → ∀ p : Pen, (p.run (t.events y)).pending ⊆ p.pending)
    (p : Pen) : (p.run (t.eventsOf items)).pending ⊆ p.pending := by
  induction items generalizing p with
  | nil => exact List.Subset.refl _
  | cons item items ih =>
    have ih := ih fun y hy => hitems y (List.mem_cons_of_mem _ hy)
    cases item with
    | stroke st =>
      refine List.Subset.trans (ih _) ?_
      rcases (Wrote.stroke p st).books with ⟨hp, -⟩ | ⟨q, -, -, hp, -⟩
      · rw [step, hp]
        exact List.Subset.refl _
      · rw [step, hp]
        exact List.nil_subset _
    | child y =>
      rw [eventsOf_child, run_append]
      exact List.Subset.trans (ih _) (hitems y List.mem_cons_self p)

/-- **A node that is written leaves no other node waiting.** -/
theorem pending_events (hac : t.Acyclic) (x : NodeId) : ∀ p : Pen, (p.run (t.events x)).pending ⊆ p.pending := by
  induction x using hac.induction with
  | h x ih =>
    intro p
    cases hx : t.get? x with
    | none =>
      unfold events
      rw [eventsTo_of_not_contains hx]
      exact List.Subset.refl _
    | some node =>
      have hchild : ∀ y, .child y ∈ node.script t → ∀ p : Pen, (p.run (t.events y)).pending ⊆ p.pending :=
        fun y hy => ih y <| .single <| by
          show y ∈ t.children x
          rw [children_of_get? hx]
          exact Node.mem_children_of_child hy
      have hitems := pending_eventsOf hchild
      rw [events_eq hac hx, run_cons, run_cons, run_append]
      intro y hy
      obtain ⟨hy, hyx⟩ := List.mem_filter.1 hy
      rcases List.mem_cons.1 (hitems _ hy) with rfl | hy
      · simp at hyx
      · rcases (Wrote.stroke p (.goto node.loc.start?)).books with ⟨hp, -⟩ | ⟨q, -, -, hp, -⟩
        · rw [step, hp] at hy
          exact hy
        · rw [step, hp] at hy
          cases hy

/-- A node that is left has written something. -/
theorem Exact.not_pending (hp : t.Proper) (hx : t.Exact) (hnode : t.get? x = some node) (hs : node.loc = .span s)
    (hne : x ≠ t.root) (hL : t.events t.root = front ++ t.events x ++ back) :
    x ∉ (after (front ++ Event.stroke (.goto node.loc.start?) :: .enter x :: t.eventsOf (node.script t))).pending := by
  intro hpend
  have hsplit : front ++ Event.stroke (.goto node.loc.start?) :: .enter x :: t.eventsOf (node.script t) =
      front ++ [Event.stroke (.goto (some s.start))] ++ Event.enter x :: t.eventsOf (node.script t) := by
    rw [hs]
    simp
  rw [hsplit] at hpend
  obtain ⟨hwait, -, hstop⟩ := life hp hx hnode hs hne hL (List.append_nil _).symm
  obtain ⟨hle, hlt⟩ := hwait hpend
  have hleave : (after (front ++ t.events x)).pos =
      (after (front ++ [Event.stroke (.goto (some s.start))] ++ Event.enter x :: t.eventsOf (node.script t))).pos := by
    have hevents : front ++ t.events x =
        (front ++ [Event.stroke (.goto (some s.start))] ++ Event.enter x :: t.eventsOf (node.script t)) ++
          [Event.leave x] := by
      rw [events_eq hp.forest.acyclic hnode, hs]
      simp
    rw [hevents, after_append _ [_]]
    rfl
  rw [← hleave, hstop] at hle
  exact absurd hlt (not_lt.2 hle)

/-! ## The second tree -/

/-- **A class with room at its end.** Of its members those that are not kept give way to new ones. -/
structure Reopened (r : Room) (K : NodeId → Prop) (keep : NodeId → Bool) (t t' : Tree) (s : Span) (d : ClassDecl)
    (new : List NodeId) : Prop where
  head : ∀ y ∈ (Kind.classDecl { d with members := [] }).children, K y
  kept : ∀ m ∈ d.members, keep m = true → K m
  dropped : ∀ m ∈ d.members, keep m = false → ∀ y, K y → ¬ t.Reaches m y
  some_member : d.members ≠ []
  gap : ∀ m ∈ d.members, ∀ q, t.stop? m = some q → (r.move q).line < (r.move s.stop).line
  added : ∀ m ∈ new, t'.contains m = true ∧ Above ((r.move s.stop).line - 1) t' m ∧ ∀ y, K y → ¬ t'.Reaches m y

/-- The class with other members and with its inner locations moved. -/
def reopen (r : Room) (keep : NodeId → Bool) (d : ClassDecl) (new : List NodeId) : ClassDecl :=
  { d with
    name := { d.name with loc := r.loc d.name.loc }, lbrace := r.loc d.lbrace, members := d.members.filter keep ++ new }

/-- **A child that is put in between the header and the types.** If columns count, it is on lines of its own. -/
structure Inserted (exact : Prop) (r : Room) (K : NodeId → Prop) (t t' : Tree) (u : UnitDecl) (id : NodeId) : Prop where
  contained : t'.contains id = true
  apart : ∀ y, K y → ¬ t'.Reaches id y
  fits : ∀ m ∈ u.types, ∀ q, t.start? m = some q → ∃ bound, Above bound t' id ∧ bound ≤ (r.move q).line ∧
    (exact → bound < (r.move q).line ∧ ∀ h ∈ u.package.toList ++ u.imports, ∀ q', t.stop? h = some q' →
      q'.line < q.line)
  header : exact → u.package.toList ++ u.imports ≠ []

/-- **The second tree is the first with room in it.** The nodes in `K` are kept, and room is made after those in `C`. -/
structure Respaced (exact : Prop) (r : Room) (K C : NodeId → Prop) (keep : NodeId → Bool) (t t' : Tree) (u : UnitDecl)
    (extra : Option NodeId) : Prop where
  proper : t.Proper
  placed : t.Exact
  room : t.RoomAfter r C
  proper' : t'.Proper
  root_eq : t'.root = t.root
  survives : ∀ x, K x → t.contains x = true ∧ x ≠ t.root
  owns : ∀ c, C c → K c
  loc_eq : ∀ x node, K x → t.get? x = some node → ∃ node', t'.get? x = some node' ∧ node'.loc = r.loc node.loc
  plain : ∀ x node node', K x → ¬ C x → t.get? x = some node → t'.get? x = some node' →
    node.kind.isProperty = false ∧ (∀ y ∈ node.kind.children, K y) ∧
    node'.kind = node.kind.mapInnerLocs (fun _ => r.loc)
  owner : ∀ c node node' s d, C c → t.get? c = some node → t'.get? c = some node' → node.loc = .span s →
    node.kind = .classDecl d → ∃ new, node'.kind = .classDecl (reopen r keep d new) ∧ Reopened r K keep t t' s d new
  blank : t.loc? t.root = some .synthetic
  blank' : t'.loc? t'.root = some .synthetic
  unit : t.unit? = some u
  unit' : t'.unit? = some { u with imports := u.imports ++ extra.toList }
  top : ∀ y ∈ t.children t.root, K y
  inserted : ∀ id ∈ extra, Inserted exact r K t t' u id

/-- **If the second pen is ready for a node, both write it and end in step.** -/
def Carried (exact : Prop) (r : Room) (K : NodeId → Prop) (t t' : Tree) (x : NodeId) : Prop :=
  ∀ front back p' q, t.events t.root = front ++ t.events x ++ back → t.start? x = some q →
    Ready exact r K q (after front) p' → InStep exact r K (after (front ++ t.events x)) (p'.run (t'.events x))

namespace Respaced

variable {u : UnitDecl} {extra : Option NodeId} (h : Respaced exact r K C keep t t' u extra)
include h

theorem follows (hy : K y) : t.Follows r t' y := by
  obtain ⟨node, hnode⟩ := contains_iff.1 (h.survives y hy).1
  obtain ⟨node', hnode', hloc⟩ := h.loc_eq y node hy hnode
  refine ⟨?_, ?_⟩
  · unfold start?
    rw [hnode, hnode', Option.bind_some, Option.bind_some, hloc, Room.start?_loc]
  · unfold stop?
    rw [hnode, hnode', Option.bind_some, Option.bind_some, hloc, Room.stop?_loc]

theorem exists_span (hy : K y) : ∃ node s, t.get? y = some node ∧ node.loc = .span s := by
  obtain ⟨hyc, hne⟩ := h.survives y hy
  obtain ⟨node, hnode⟩ := contains_iff.1 hyc
  obtain ⟨s, hs⟩ := h.placed.span_of_ne hnode hne
  exact ⟨node, s, hnode, hs⟩

/-- **Items with matching strokes keep the pens in step.** -/
theorem inStep_items (hheeds : Heeds t items) (hK : ∀ y, .child y ∈ items → K y ∧ Carried exact r K t t' y)
    (hback : ∀ c rest, C c → back ≠ .leave c :: rest) (hL : t.events t.root = front ++ t.eventsOf items ++ back)
    (hp : InStep exact r K (after front) p') :
    InStep exact r K (after (front ++ t.eventsOf items)) (p'.run (t'.eventsOf (items.map (Item.moved r.move)))) := by
  induction items generalizing front p' with
  | nil =>
    rw [eventsOf_nil, List.append_nil]
    exact hp
  | cons item items ih =>
    have hK' : ∀ y, .child y ∈ items → K y ∧ Carried exact r K t t' y := fun y hy => hK y (List.mem_cons_of_mem _ hy)
    cases item with
    | stroke st =>
      have hsplit : t.events t.root = front ++ Event.stroke st :: (t.eventsOf items ++ back) := by
        rw [hL]
        simp
      have hsteady := h.placed.steady h.proper h.room (K := K) h.survives (fun y hy => h.survives y (hK' y hy).1) hheeds
        hsplit fun c rest hc _ => hback c rest hc
      have hstep : InStep exact r K (after (front ++ [Event.stroke st])) (p'.stroke (st.moved r.move)) := by
        rw [after_append]
        exact hp.stroke hsteady
      have hrest := ih hheeds.tail hK' (by rw [hsplit]; simp) hstep
      rwa [List.append_assoc] at hrest
    | child y =>
      obtain ⟨hy, hcarried⟩ := hK y List.mem_cons_self
      obtain ⟨node, s, hnode, hs⟩ := h.exists_span hy
      have hsplit : t.events t.root = front ++ t.events y ++ (t.eventsOf items ++ back) := by
        rw [hL]
        simp
      have hle := (h.placed.at_node h.proper hnode hs (h.survives y hy).2 hsplit).1
      have hstep := hcarried front _ p' s.start hsplit (start?_of_span hnode hs) (hp.ready hle)
      have hrest := ih hheeds.tail hK' (by rw [hsplit, List.append_assoc _ (t.events y)]; simp) hstep
      rw [List.map_cons, Item.moved, eventsOf_child, eventsOf_child, run_append, ← List.append_assoc]
      exact hrest

/-- A kept node is entered in step, and if its text comes out in step it is left in step. -/
theorem carried_of_script {node' : Node} (hx : K x) (hnode : t.get? x = some node) (hnode' : t'.get? x = some node')
    (hscript : ∀ front back p', t.events t.root = front ++ t.eventsOf (node.script t) ++ Event.leave x :: back →
      node.loc.stop? = some (after (front ++ t.eventsOf (node.script t))).pos →
      InStep exact r K (after front) p' → InStep exact r K (after (front ++ t.eventsOf (node.script t)))
        (p'.run (t'.eventsOf (node'.script t')))) : Carried exact r K t t' x := by
  obtain ⟨hxc, hne⟩ := h.survives x hx
  intro front back p' q hL hq hready
  obtain ⟨s, hs⟩ := h.placed.span_of_ne hnode hne
  obtain rfl : s.start = q := Option.some.inj ((start?_of_span hnode hs).symm.trans hq)
  have hstart' : node'.loc.start? = some (r.move s.start) := by
    obtain ⟨node'', hnode'', hloc⟩ := h.loc_eq x node hx hnode
    obtain rfl : node' = node'' := Option.some.inj (hnode'.symm.trans hnode'')
    rw [hloc, hs]
    rfl
  have hevents := events_eq h.proper.forest.acyclic hnode
  have hevents' := events_eq h.proper'.forest.acyclic hnode'
  have hstart : node.loc.start? = some s.start := by
    rw [hs]
    rfl
  obtain ⟨hle, -, -, hstop⟩ := h.placed.at_node h.proper hnode hs hne hL
  have henter : InStep exact r K (after (front ++ [Event.stroke (.goto node.loc.start?), .enter x]))
      ((p'.goto (r.move s.start)).enter x) := by
    rw [after_append, hstart]
    exact hready.enter hle (h.placed.one_le_start hnode hs) hx
  have hsplit : t.events t.root = (front ++ [Event.stroke (.goto node.loc.start?), .enter x]) ++
      t.eventsOf (node.script t) ++ Event.leave x :: back := by
    rw [hL, hevents]
    simp
  have hend : front ++ t.events x =
      (front ++ Event.stroke (.goto node.loc.start?) :: .enter x :: t.eventsOf (node.script t)) ++ [Event.leave x] := by
    rw [hevents]
    simp
  have hsame : front ++ [Event.stroke (.goto node.loc.start?), .enter x] ++ t.eventsOf (node.script t) =
      front ++ Event.stroke (.goto node.loc.start?) :: .enter x :: t.eventsOf (node.script t) := by simp
  have hpos : node.loc.stop? =
      some (after (front ++ [Event.stroke (.goto node.loc.start?), .enter x] ++ t.eventsOf (node.script t))).pos := by
    rw [hend, after_append _ [_]] at hstop
    rw [hsame, show node.loc.stop? = some s.stop by rw [hs]; rfl]
    exact congrArg some hstop.symm
  have hbody := hscript _ _ _ hsplit hpos henter
  have hnot := h.placed.not_pending h.proper hnode hs hne hL
  rw [hsame] at hbody
  have hleave := hbody.leave hnot
  rw [hevents', hstart', run_cons, run_cons, run_append, hend, after_append _ [_]]
  exact hleave

/-- **A node after which no room is made.** -/
theorem carried_plain (hx : K x) (hxC : ¬ C x) (ih : ∀ y ∈ t.children x, Carried exact r K t t' y) :
    Carried exact r K t t' x := by
  obtain ⟨hxc, hne⟩ := h.survives x hx
  obtain ⟨node, hnode⟩ := contains_iff.1 hxc
  obtain ⟨node', hnode', hloc⟩ := h.loc_eq x node hx hnode
  obtain ⟨-, hchildren, hkind⟩ := h.plain x node node' hx hxC hnode hnode'
  have hscript : node'.script t' = (node.script t).map (Item.moved r.move) :=
    Node.script_moved hloc hkind (fun y hy => h.follows (hchildren y hy))
      (h.placed.rigid h.proper h.room hnode hne hxC)
  refine h.carried_of_script hx hnode hnode' fun front back p' hL _ hp => ?_
  rw [hscript]
  refine h.inStep_items (node.heeds_script t) (fun y hy => ?_) (fun c rest hc hrest => ?_) hL hp
  · have hy := Node.mem_children_of_child hy
    exact ⟨hchildren y hy, ih y (by rwa [children_of_get? hnode])⟩
  · cases hrest
    exact hxC hc

/-! ## Classes with room at the end -/

/-- A member that is kept is written as before. -/
theorem ready_kept {m : NodeId} (hm : K m) (hcarried : Carried exact r K t t' m) (hstart : t.start? m = some q)
    (hle : (after front).pos ≤ q)
    (hL : t.events t.root = (front ++ [Event.stroke (.sep (some q))]) ++ t.events m ++ back)
    (hp : Ready exact r K (after front).pos (after front) p') :
    Ready exact r K (after (front ++ Event.stroke (.sep (some q)) :: t.events m)).pos
      (after (front ++ Event.stroke (.sep (some q)) :: t.events m)) (p'.run (t'.eventsOf (separated t' m))) := by
  have hstart' : t'.start? m = some (r.move q) := by rw [(h.follows hm).start_eq, hstart]; rfl
  have hsep : Ready exact r K q (after (front ++ [Event.stroke (.sep (some q))])) (p'.sep (some (r.move q))) := by
    rw [after_append]
    exact (hp.mono hle).sep hle
  have hstep := hcarried _ _ _ q hL hstart hsep
  have hone : t'.eventsOf (separated t' m) = .stroke (.sep (some (r.move q))) :: t'.events m := by
    rw [separated, hstart']
    simp [Script.sep]
  rw [hone]
  rw [List.append_assoc] at hstep
  exact hstep.ready (le_refl _)

/-- A member that is not kept is passed over. -/
theorem ready_dropped {m : NodeId} (hmc : t.contains m = true) (hdrop : ∀ y, K y → ¬ t.Reaches m y)
    (hlt : (after front).pos < (after (front ++ Event.stroke (.sep (some q)) :: t.events m)).pos)
    (hpend : ∀ y, K y → y ∉ (after front).pending) (hp : Ready exact r K (after front).pos (after front) p') :
    Ready exact r K (after (front ++ Event.stroke (.sep (some q)) :: t.events m)).pos
      (after (front ++ Event.stroke (.sep (some q)) :: t.events m)) p' := by
  rw [after_append] at hlt ⊢
  refine hp.run_left (le_refl _) hlt hpend fun y hy => ?_
  have hout := hdrop y hy
  rw [List.mem_cons, List.mem_cons, enter_mem_events h.proper.forest hmc, leave_mem_events h.proper.forest hmc]
  exact ⟨by simpa using hout, by simpa using hout⟩

/-- **The members that are kept are written as before, while the others are passed over.** -/
theorem ready_members {ms : List NodeId} (hms : ∀ m ∈ ms, t.contains m = true ∧ m ≠ t.root)
    (hkeep : ∀ m ∈ ms, keep m = true → K m ∧ Carried exact r K t t' m)
    (hdrop : ∀ m ∈ ms, keep m = false → ∀ y, K y → ¬ t.Reaches m y)
    (hL : t.events t.root = front ++ t.eventsOf (separatedAll t ms) ++ back)
    (hpend : ∀ y, K y → y ∉ (after front).pending) (hp : Ready exact r K (after front).pos (after front) p') :
    (∀ y, K y → y ∉ (after (front ++ t.eventsOf (separatedAll t ms))).pending) ∧
      Ready exact r K (after (front ++ t.eventsOf (separatedAll t ms))).pos
        (after (front ++ t.eventsOf (separatedAll t ms)))
          (p'.run (t'.eventsOf (separatedAll t' (ms.filter keep)))) := by
  induction ms generalizing front p' with
  | nil =>
    rw [show t.eventsOf (separatedAll t []) = [] from rfl, List.append_nil]
    exact ⟨hpend, hp⟩
  | cons m ms ih =>
    obtain ⟨hmc, hmr⟩ := hms m List.mem_cons_self
    obtain ⟨node, hnode⟩ := contains_iff.1 hmc
    obtain ⟨s, hs⟩ := h.placed.span_of_ne hnode hmr
    have hstart := start?_of_span hnode hs
    have hcons : t.eventsOf (separatedAll t (m :: ms)) =
        .stroke (.sep (some s.start)) :: (t.events m ++ t.eventsOf (separatedAll t ms)) := by
      show t.eventsOf (separated t m ++ separatedAll t ms) = _
      rw [eventsOf_append, separated, hstart]
      simp [Script.sep]
    have hsplit : t.events t.root = (front ++ [Event.stroke (.sep (some s.start))]) ++ t.events m ++
        (t.eventsOf (separatedAll t ms) ++ back) := by
      rw [hL, hcons]
      simp
    obtain ⟨hle, -, hlt, hstop⟩ := h.placed.at_node h.proper hnode hs hmr hsplit
    have hle' : (after front).pos ≤ s.start := (after_le_after front _).trans hle
    have hnext : t.events t.root = (front ++ Event.stroke (.sep (some s.start)) :: t.events m) ++
        t.eventsOf (separatedAll t ms) ++ back := by
      rw [hsplit]
      simp
    have hpend' : ∀ y, K y → y ∉ (after (front ++ Event.stroke (.sep (some s.start)) :: t.events m)).pending :=
      fun y hy hyp => hpend y hy <| by
        rw [after_append, run_cons] at hyp
        have hsep : y ∈ ((after front).sep (some s.start)).pending := pending_events h.proper.forest.acyclic m _ hyp
        rwa [sep_of_le hle'] at hsep
    have hms' : ∀ m ∈ ms, t.contains m = true ∧ m ≠ t.root := fun m' hm' => hms m' (List.mem_cons_of_mem _ hm')
    have hkeep' : ∀ m ∈ ms, keep m = true → K m ∧ Carried exact r K t t' m := fun m' hm' =>
      hkeep m' (List.mem_cons_of_mem _ hm')
    have hdrop' : ∀ m ∈ ms, keep m = false → ∀ y, K y → ¬ t.Reaches m y := fun m' hm' =>
      hdrop m' (List.mem_cons_of_mem _ hm')
    rw [hcons, ← List.cons_append, ← List.append_assoc]
    cases hkm : keep m with
    | true =>
      obtain ⟨hm, hcarried⟩ := hkeep m List.mem_cons_self hkm
      have hready := ih hms' hkeep' hdrop' hnext hpend' (h.ready_kept hm hcarried hstart hle' hsplit hp)
      rw [← run_append, ← eventsOf_append] at hready
      rw [List.filter_cons_of_pos hkm]
      exact hready
    | false =>
      have hpos : (after (front ++ Event.stroke (.sep (some s.start)) :: t.events m)).pos = s.stop := by
        rw [← hstop]
        simp
      have hready := ih hms' hkeep' hdrop' hnext hpend'
        (h.ready_dropped hmc (hdrop m List.mem_cons_self hkm) (hpos ▸ hle'.trans_lt hlt) hpend hp)
      rw [List.filter_cons_of_neg (by rw [hkm]; decide)]
      exact hready

end Respaced

end Tree

end UniformAccess
