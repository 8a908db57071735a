import UniformAccess.Proofs.Printing.Abreast
import UniformAccess.Proofs.Resolution.Around
/-!
# Where the text changes

A complaint changes the text on the lines that the replaced node was written on, and on no others. Up to its scope the
node and the call are written alike. They differ in width, and so all that follows on the last of these lines may be
spaced in another way; but the pen is sent to the same last line for both, and from the next line on the text is the
same again (`resolve_sameLinesBut`). The scope has to write something for this: the period comes right after it in a
call, and in an access on the line of the member.
-/
namespace UniformAccess

/-! ## The last line that the pen is sent to -/

/-- The line that the pen is sent to. -/
def Event.line : Event → Nat
  | .stroke (.goto target) => (target.map (·.line)).getD 0
  | _ => 0

/-- The last line that the pen is sent to. -/
def bottomLine (es : List Event) : Nat := (es.map Event.line).foldr max 0

@[simp]
theorem bottomLine_nil : bottomLine [] = 0 := rfl

@[simp]
theorem bottomLine_cons (e : Event) (es : List Event) : bottomLine (e :: es) = max e.line (bottomLine es) := rfl

@[simp]
theorem bottomLine_append (es es' : List Event) : bottomLine (es ++ es') = max (bottomLine es) (bottomLine es') := by
  induction es with
  | nil => exact (Nat.zero_max _).symm
  | cons e es ih => rw [List.cons_append, bottomLine_cons, bottomLine_cons, ih, Nat.max_assoc]

namespace Pen

theorem line_step (p : Pen) (e : Event) : (p.step e).pos.line = max p.pos.line e.line := by
  cases e with
  | enter id => exact (Nat.max_zero _).symm
  | leave id => exact (Nat.max_zero _).symm
  | stroke s =>
    cases s with
    | goto target =>
      cases target with
      | none => exact (Nat.max_zero _).symm
      | some q => exact line_goto p q
    | _ => exact (line_stroke p _ fun _ h => by cases h).trans (Nat.max_zero _).symm

/-- **The pen is on the last line that it was sent to**, or where it began. -/
theorem line_run (p : Pen) (es : List Event) : (p.run es).pos.line = max p.pos.line (bottomLine es) := by
  induction es generalizing p with
  | nil => exact (Nat.max_zero _).symm
  | cons e es ih => rw [run_cons, ih, line_step, bottomLine_cons, Nat.max_assoc]

theorem le_goto (p : Pen) (q : Pos) : q ≤ (p.goto q).pos := by
  by_cases hle : q ≤ p.pos
  · rwa [goto_of_le hle]
  · have hline := line_goto p q
    rw [Pos.le_def] at hle ⊢
    by_cases hcol : 1 ≤ q.col
    · have hpos := (goto_of_lt (p := p) (q := q) (by rw [Pos.lt_def]; omega) hcol).1
      rw [hpos]
      exact .inr ⟨rfl, le_refl _⟩
    · omega

/-- Being sent to a position twice is as good as once. -/
theorem goto_goto (p : Pen) (q : Pos) : (p.goto q).goto q = p.goto q := goto_of_le (le_goto p q)

theorem sameInk_goto_twice (p : Pen) (target : Option Pos) (x y z : NodeId) :
    SameInk (p.run [.stroke (.goto target), .enter x, .stroke (.goto target), .enter y])
      (p.run [.stroke (.goto target), .enter z]) := by
  cases target with
  | none => exact ⟨rfl, rfl, rfl⟩
  | some q =>
    have htwice := (SameInk.enter (p.goto q) x).goto q
    rw [goto_goto] at htwice
    exact ((htwice.trans (.enter _ y)).symm).trans (.enter _ z)

theorem OnLine.run_level {front : String} {line : Nat} {ss : List Stroke} {p : Pen} (h : OnLine front line p)
    (hlevel : ∀ s ∈ ss, s.Level) (htext : ∀ s ∈ ss, ∀ text, s.text? = some text → '\n' ∉ text.toList) :
    OnLine front line (p.run (ss.map .stroke)) := by
  induction ss generalizing p with
  | nil => exact h
  | cons s ss ih =>
    refine ih (h.stroke (htext s List.mem_cons_self) fun target hs => (hlevel s List.mem_cons_self target hs).elim)
      (fun s' hs' => hlevel s' (List.mem_cons_of_mem _ hs')) fun s' hs' => htext s' (List.mem_cons_of_mem _ hs')

end Pen

/-! ## Names of accessors -/

theorem newline_ne_ofNat {n : Nat} (h : 10 < n) : '\n' ≠ Char.ofNat n := fun heq => by
  have hnat : 10 = (Char.ofNat n).toNat := congrArg Char.toNat heq
  rw [Char.toNat_ofNat] at hnat
  split at hnat <;> omega

theorem Text.newline_not_mem_uppercase {c : Char} (h : c ≠ '\n') : '\n' ∉ Text.uppercase c := by
  have hexpansions : ∀ e ∈ Text.caseExpansions, ∀ n ∈ e.2, 10 < n := by decide
  have hruns : ∀ r ∈ Text.caseRuns, 10 < r.upper := by decide +kernel
  unfold Text.uppercase
  split
  · rename_i upper hfind
    intro hmem
    obtain ⟨n, hn, heq⟩ := List.mem_map.1 hmem
    exact newline_ne_ofNat (hexpansions _ (List.mem_of_find?_eq_some hfind) n hn) heq.symm
  · split
    · rename_i r hfind
      have hupper := hruns r (List.mem_of_find?_eq_some hfind)
      exact fun hmem => newline_ne_ofNat (by omega) (List.mem_singleton.1 hmem)
    · exact fun hmem => h (List.mem_singleton.1 hmem).symm

theorem newline_not_mem_capitalize {name : String} (h : '\n' ∉ name.toList) : '\n' ∉ (capitalize name).toList := by
  unfold capitalize
  split
  · exact List.not_mem_nil
  · rename_i first rest hname
    rw [hname, List.mem_cons, not_or] at h
    rw [String.toList_ofList, List.mem_append, not_or]
    exact ⟨Text.newline_not_mem_uppercase (Ne.symm h.1), h.2⟩

theorem newline_not_mem_accessors {name : String} (h : '\n' ∉ name.toList) :
    '\n' ∉ (getterName name).toList ∧ '\n' ∉ (setterName name).toList := by
  unfold getterName setterName
  rw [String.toList_append, String.toList_append, List.mem_append, List.mem_append, not_or, not_or]
  exact ⟨⟨by decide, newline_not_mem_capitalize h⟩, ⟨by decide, newline_not_mem_capitalize h⟩⟩

theorem Kind.texts_withSlots (k : Kind) (s : List Slot) : (k.withSlots s).texts = k.texts := by
  cases k <;> rfl

theorem Kind.texts_bare (k : Kind) : k.bare.texts = k.texts := by
  cases k <;> rfl

/-! ## The lines of a rewritten access -/

/-- Whether an assignment begins where its target begins, or an access stops on the line where its member begins. If
one of the two is without a position, so is the other. -/
def Node.Coherent (t : Tree) (n : Node) : Prop :=
  match n.kind with
  | .assign target _ _ => n.loc.start? = t.start? target
  | .fieldAccess _ member => n.loc.stop?.map (·.line) = member.loc.start?.map (·.line)
  | _ => True

instance (t : Tree) (n : Node) : Decidable (n.Coherent t) := by
  unfold Node.Coherent
  split <;> infer_instance

namespace Tree

open Pen Script

variable {t t' : Tree} {id scope old new x c : NodeId} {off found : List NodeId} {name : String} {loc : Loc}
  {member : Ident}

/-- **Every assignment begins where its target does, and every access stops on the line where its member begins.** -/
def Coherent (t : Tree) : Prop := ∀ x node, t.get? x = some node → node.Coherent t

instance (t : Tree) : Decidable t.Coherent :=
  decidable_of_iff (∀ x ∈ t.ids, ∀ node ∈ t.get? x, node.Coherent t)
    ⟨fun h x node hnode => h x (mem_ids_of_contains (contains_iff.2 ⟨node, hnode⟩)) node hnode,
      fun h x _ node hnode => h x node hnode⟩

theorem bottomLine_eventsOf {items : List Item} (hgoto : Aims (fun _ => False) items)
    (hchild : ∀ c, .child c ∈ items → bottomLine (t.events c) = 0) : bottomLine (t.eventsOf items) = 0 := by
  induction items with
  | nil => rfl
  | cons item items ih =>
    have hrest := ih (fun q hq => hgoto q (List.mem_cons_of_mem _ hq)) fun c hc => hchild c (List.mem_cons_of_mem _ hc)
    cases item with
    | child c => rw [eventsOf_child, bottomLine_append, hchild c List.mem_cons_self, hrest, Nat.max_self]
    | stroke s =>
      have hline : Event.line (.stroke s) = 0 := by
        unfold Event.line
        split
        · rename_i target heq
          cases heq
          cases target with
          | none => rfl
          | some q => exact (hgoto q List.mem_cons_self).elim
        · rfl
      rw [eventsOf_stroke, bottomLine_cons, hline, hrest, Nat.max_self]

/-- **Nodes without locations send the pen nowhere.** -/
theorem bottomLine_of_plain (hac : t.Acyclic)
    (h : ∀ y, t.Reaches x y → t.loc? y = some .synthetic ∧ t.kind? y = t.bare? y) : bottomLine (t.events x) = 0 := by
  induction x using hac.induction with
  | h x ih =>
    obtain ⟨hloc, hkind⟩ := h x .refl
    obtain ⟨node, hnode, hsynthetic⟩ := Option.map_eq_some_iff.1 hloc
    have hbare : node.kind = node.kind.bare := by
      unfold bare? kind? at hkind
      rw [hnode] at hkind
      exact Option.some.inj hkind
    have hinner : ∀ l ∈ node.kind.innerLocs, l.start? = none := fun l hl => by
      rw [hbare, Kind.bare, Kind.innerLocs_mapInnerLocs_const (fun _ => .synthetic)] at hl
      obtain ⟨_, -, rfl⟩ := List.mem_map.1 hl
      rfl
    have haims : Aims (fun _ => False) (node.script t) := by
      refine Node.aims_script (fun l hl q hq => ?_) (fun l hl q hq => ?_) fun _ _ q hq => ?_
      · rw [hinner l hl] at hq; cases hq
      · rw [hinner l hl] at hq; cases hq
      · rw [hsynthetic] at hq; cases hq
    have hitems : bottomLine (t.eventsOf (node.script t)) = 0 := bottomLine_eventsOf haims fun c hc => by
      have hcx : c ∈ t.children x := by
        rw [children_of_get? hnode]
        exact Node.mem_children_of_child hc
      exact ih c (.single hcx) fun y hy => h y (.head hcx hy)
    rw [events_eq hac hnode, hsynthetic, bottomLine_cons, bottomLine_cons, bottomLine_append, hitems]
    rfl

/-- **No line gets longer than one**: if no text in the tree holds a newline, none does after an
access was rewritten. -/
theorem Rewritten.oneLine (hp : t.Proper) (hp' : t'.Proper) (hk : t.kind? id = some (.fieldAccess scope member))
    (h : Rewritten t t' id scope member.name loc found) (hone : t.OneLine) : t'.OneLine := by
  have htexts : ∀ x k, t.kind? x = some k → ∀ text ∈ k.texts, '\n' ∉ text.toList := fun x k hkx => by
    obtain ⟨node, hnode, rfl⟩ := Option.map_eq_some_iff.1 hkx
    exact hone x node hnode
  have haccessors := newline_not_mem_accessors (htexts id _ hk member.name List.mem_cons_self)
  intro x node hnode
  have hxc : t'.contains x = true := contains_iff.2 ⟨node, hnode⟩
  have hkx : t'.kind? x = some node.kind := (parts_of_get? hnode).1
  rcases Nat.lt_or_ge x.index t.cells.size with hlt | hge
  · obtain ⟨top, new, off, hplaced, -, -⟩ := h.exists_placed_site hp
    obtain ⟨hxo, hxt⟩ := hplaced.contains_of_index_lt hlt hxc
    obtain ⟨k, hkt⟩ := exists_kind? hxt
    by_cases hxtop : x = top
    · rw [hxtop] at hkx hkt
      rw [← Option.some.inj ((hplaced.kind_top k hkt).symm.trans hkx), Kind.texts_withSlots]
      exact htexts top k hkt
    · rw [hplaced.kind_eq x hlt hxtop hxo] at hkx
      exact htexts x _ hkx
  · rcases h.accessing_or_copied hp hp' hk hxc hge with ⟨k, hkk, hacc⟩ | ⟨copy, hcopied, hreach⟩
    · rw [← Option.some.inj (hkk.symm.trans hkx)]
      intro text htext
      cases hacc with
      | getter => rw [List.mem_singleton.1 htext]; exact haccessors.1
      | setter => rw [List.mem_singleton.1 htext]; exact haccessors.2
      | combined => cases htext
      | paren => cases htext
    · obtain ⟨y, hy, htwin⟩ := hcopied.twin.exists_of_reaches hreach
      rw [h.reaches_scope_iff hp hk] at hy
      obtain @⟨_, _, k, slots, hky, hkx', -⟩ := htwin
      rw [bare?_of_kind? hkx] at hkx'
      unfold bare? at hky
      rw [(h.kind?_of_reaches_scope hp hk hy).2] at hky
      obtain ⟨k', hk', rfl⟩ := Option.map_eq_some_iff.1 hky
      rw [← Kind.texts_bare, Option.some.inj hkx', Kind.texts_withSlots, Kind.texts_bare]
      exact htexts y k' hk'

/-! ## How an access and a call are written -/

theorem events_access (hac : t.Acyclic) {node : Node} (hnode : t.get? id = some node)
    (hkind : node.kind = .fieldAccess scope member) :
    t.events id = [Event.stroke (.goto node.loc.start?), .enter id] ++ t.events scope ++
      [Event.stroke (.goto (periodPos member.loc)), .stroke (.write "."), .stroke (.goto member.loc.start?),
        .stroke (.write member.name), .leave id] := by
  have hscript : node.script t = .child scope :: (period member.loc ++ ident member) := by
    unfold Node.script
    rw [hkind]
    rfl
  rw [events_eq hac hnode, hscript]
  simp [period, ident, writeAt]

theorem events_call (hac : t.Acyclic) {node : Node} {accessor : String} {args : List NodeId}
    (hnode : t.get? new = some node) (hkind : node.kind = .call (some scope) (.synthetic accessor) args) :
    t.events new = [Event.stroke (.goto node.loc.start?), .enter new] ++ t.events scope ++
      ([Event.stroke (.goto none), .stroke (.write "."), .stroke (.goto none), .stroke (.write accessor)] ++
        t.eventsOf (Script.args t args none node.loc.stop?) ++ [Event.leave new]) := by
  have hscript : node.script t = .child scope :: (period .synthetic ++ ident (.synthetic accessor)
      ++ Script.args t args none node.loc.stop?) := by
    unfold Node.script
    rw [hkind]
    rfl
  rw [events_eq hac hnode, hscript]
  simp [period, ident, writeAt, periodPos, Ident.synthetic]

theorem events_assign (hac : t.Acyclic) {node : Node} {target value : NodeId} {op : AssignOp}
    (hnode : t.get? x = some node) (hkind : node.kind = .assign target op value) :
    t.events x = [Event.stroke (.goto node.loc.start?), .enter x] ++ t.events target ++
      (Event.stroke (.glue (.spaced op.text) (t.stop? target) (t.start? value)) ::
        (t.events value ++ [Event.leave x])) := by
  have hscript : node.script t =
      .child target :: (Script.glue (.spaced op.text) (t.stop? target) (t.start? value) ++ [Item.child value]) := by
    unfold Node.script
    rw [hkind]
    rfl
  rw [events_eq hac hnode, hscript]
  simp [Script.glue]

/-- The arguments of a call end with a bracket. -/
theorem exists_eventsOf_args (t : Tree) (args : List NodeId) (callee stop : Option Pos) :
    ∃ es text, t.eventsOf (Script.args t args callee stop) = es ++ [Event.stroke (.write text)] ∧ text ≠ "" := by
  cases args with
  | nil => exact ⟨[Event.stroke (.goto (closingPos "()" stop))], "()", rfl, by decide⟩
  | cons first rest =>
    refine ⟨t.eventsOf (Script.glue ⟨false, "(", false⟩ callee (t.start? first) ++ list t (first :: rest)) ++
      [Event.stroke (.goto (closingPos ")" stop))], ")", ?_, by decide⟩
    unfold Script.args
    dsimp only
    rw [eventsOf_append, List.append_assoc]
    rfl

theorem exists_close_call (hac : t.Acyclic) {node : Node} {accessor : String} {args : List NodeId}
    (hnode : t.get? new = some node) (hkind : node.kind = .call (some scope) (.synthetic accessor) args) :
    ∃ es text, t.events new = es ++ [Event.stroke (.write text), .leave new] ∧ text ≠ "" := by
  obtain ⟨es, text, hes, hne⟩ := exists_eventsOf_args t args none node.loc.stop?
  refine ⟨[Event.stroke (.goto node.loc.start?), .enter new] ++ t.events scope ++
    ([Event.stroke (.goto none), .stroke (.write "."), .stroke (.goto none), .stroke (.write accessor)] ++ es),
    text, ?_, hne⟩
  rw [events_call hac hnode hkind, hes]
  simp only [List.append_assoc, List.cons_append, List.nil_append]

theorem line_closingPos (text : String) (stop : Option Pos) :
    (closingPos text stop).map (·.line) = stop.map (·.line) := by
  cases stop <;> rfl

theorem line_periodPos_le (l : Loc) :
    ((periodPos l).map (·.line)).getD 0 ≤ (l.start?.map (·.line)).getD 0 := by
  unfold periodPos
  cases l.start? with
  | none => exact Nat.zero_le _
  | some p =>
    by_cases hcol : 1 < p.col
    · simp [Option.filter, hcol]
    · simp [Option.filter, hcol]

/-- Of a node without a location only the script counts. -/
theorem bottomLine_synthetic (hac : t.Acyclic) {k : Kind} (hloc : t.loc? x = some .synthetic)
    (hkind : t.kind? x = some k) :
    bottomLine (t.events x) = bottomLine (t.eventsOf (Node.script t { loc := .synthetic, kind := k })) := by
  obtain ⟨node, hnode, hsynthetic⟩ := Option.map_eq_some_iff.1 hloc
  obtain rfl : node.kind = k := Option.some.inj ((parts_of_get? hnode).1.symm.trans hkind)
  have hscript : node.script t = Node.script t { loc := .synthetic, kind := node.kind } := by
    unfold Node.script
    rw [hsynthetic]
  rw [events_eq hac hnode, hsynthetic, hscript, bottomLine_cons, bottomLine_cons, bottomLine_append]
  simp [Event.line]

/-- **A call begins like what it takes the place of**: with the scope, and before that with the same strokes. It ends
with a text, on the last line that the pen was sent to before. -/
structure Restates (t t' : Tree) (old new scope : NodeId) : Prop where
  front : ∃ pre pre' post post', t.events old = pre ++ t.events scope ++ post ∧
    t'.events new = pre' ++ t.events scope ++ post' ∧ ∀ p : Pen, SameInk (p.run pre) (p.run pre')
  bottom : bottomLine (t'.events new) = bottomLine (t.events old)
  close : ∃ es text, t'.events new = es ++ [Event.stroke (.write text), .leave new] ∧ text ≠ ""

end Tree

namespace Resolution.Resolves

open UniformAccess.Tree Pen Script

variable {s s' : Tracked} {layout : Option Layout} {p : Pos} {id scope x : NodeId} {node : Node} {member : Ident}
  {found : List NodeId} (hp : s.tree.Proper) (h : Resolves layout p s s' id node scope member found)
include h

include hp

/-- The scope is written as before. -/
theorem events_scope : s'.tree.events scope = s.tree.events scope := by
  refine events_congr hp.forest.acyclic h.resolved.proper.forest.acyclic fun y hy => ?_
  obtain ⟨hne, hkind⟩ := h.rewritten.kind?_of_reaches_scope hp h.kind?_eq hy
  obtain ⟨top, new, off, hplaced, -, hoff⟩ := h.rewritten.exists_placed_site hp
  refine ⟨hkind, hplaced.loc_eq y ?_ fun hyo => hne ?_⟩
  · exact index_lt_of_contains (hp.forest.contains_of_reaches (hp.contained id scope h.scope_mem) hy)
  · simpa using (hoff y).1 hyo

omit hp in
/-- A new node that a new node holds has no location. -/
theorem loc?_of_held {y : NodeId} (hx : s.tree.cells.size ≤ x.index) (hy : s.tree.cells.size ≤ y.index)
    (hheld : y ∈ s'.tree.children x) : s'.tree.loc? y = some .synthetic := by
  refine (h.plain y hy (h.resolved.proper.contained x y hheld)).resolve_right fun ⟨q, hq, hqy⟩ => ?_
  have hxq : x = q := Option.some.inj
    ((h.resolved.proper.linked x y hheld).symm.trans (h.resolved.proper.linked q y hqy))
  exact Nat.not_lt.2 hx (hxq ▸ hq)

/-- **What is handed to a setter leads the pen where the value does.** -/
theorem bottomLine_handed {top write new value arg : NodeId} {op : AssignOp}
    (hwrite : s.tree.kind? write = some (.assign id op value))
    (hplaced : Placed s.tree s'.tree top write new [write, id])
    (hcall : s'.tree.kind? new = some (.call (some scope) (.synthetic (setterName member.name)) [arg]))
    (hhanded : Handed s.tree s'.tree scope member.name op value found arg) :
    bottomLine (s'.tree.events arg) = bottomLine (s.tree.events value) := by
  have hac' := h.resolved.proper.forest.acyclic
  have hvalue : value ∈ s.tree.children write := by
    rw [children_of_kind? hwrite]
    exact List.mem_cons_of_mem _ List.mem_cons_self
  have hid : id ∈ s.tree.children write := by
    rw [children_of_kind? hwrite]
    exact List.mem_cons_self
  have hsame : s'.tree.events value = s.tree.events value := by
    refine events_congr hp.forest.acyclic hac' fun y hy => ?_
    have hlt := index_lt_of_contains (hp.forest.contains_of_reaches (hp.contained write value hvalue) hy)
    have hyw : y ≠ write := by
      rintro rfl
      exact hp.forest.acyclic y (Relation.TransGen.head' hvalue hy)
    have hyid : y ≠ id := by
      rintro rfl
      have heq := hp.forest.sibling_unique hvalue hid hy .refl
      have hnd := hp.single write
      rw [children_of_kind? hwrite, heq] at hnd
      exact absurd List.mem_cons_self (List.nodup_cons.1 hnd).1
    have hyo : y ∉ [write, id] := by simp [hyw, hyid]
    have hytop : y ≠ top := by
      rintro rfl
      exact hp.forest.acyclic y (Relation.TransGen.head' hplaced.held (Relation.ReflTransGen.head hvalue hy))
    exact ⟨hplaced.kind_eq y hlt hytop hyo, hplaced.loc_eq y hlt hyo⟩
  cases hhanded with
  | plain hop => rw [hsame]
  | @combined _ o k current copy right _ hop hread hfresh harg hvk hright =>
    have hargloc := h.loc?_of_held hplaced.fresh hfresh (by
      rw [children_of_kind? hcall]
      exact List.mem_cons_of_mem _ List.mem_cons_self)
    have hcurrentloc := h.loc?_of_held hfresh hread.fresh (by
      rw [children_of_kind? harg]
      exact List.mem_cons_self)
    have hcopy : bottomLine (s'.tree.events copy) = 0 := bottomLine_of_plain hac' fun y hy => (hread.plain y hy).2
    have hcurrent : bottomLine (s'.tree.events current) = 0 := by
      rw [bottomLine_synthetic hac' hcurrentloc hread.call]
      simp [Node.script, period, ident, writeAt, periodPos, Ident.synthetic, Script.args, closing, closingPos,
        Event.line, hcopy]
    have hrightline : bottomLine (s'.tree.events right) = bottomLine (s.tree.events value) := by
      split at hright
      · have hrightloc := h.loc?_of_held hfresh hright.1 (by
          rw [children_of_kind? harg]
          exact List.mem_cons_of_mem _ List.mem_cons_self)
        rw [bottomLine_synthetic hac' hrightloc hright.2]
        simp [Node.script, Script.write, writeAt, closing, closingPos, Event.line, hsame]
      · rw [hright, hsame]
    rw [bottomLine_synthetic hac' hargloc harg]
    simp [Node.script, Script.glue, Event.line, hcurrent, hrightline]

omit hp in
theorem stop_line_eq (hco : s.tree.Coherent) : node.loc.stop?.map (·.line) = member.loc.start?.map (·.line) := by
  have hnode := hco id node h.get_eq
  unfold Node.Coherent at hnode
  rwa [h.kind_eq] at hnode

/-- A call of the getter restates the access. -/
theorem restates_read (hco : s.tree.Coherent) {new : NodeId} {node' : Node} (hnode' : s'.tree.get? new = some node')
    (hkind' : node'.kind = .call (some scope) (.synthetic (getterName member.name)) []) (hloc' : node'.loc = node.loc) :
    Restates s.tree s'.tree id new scope := by
  have hac' := h.resolved.proper.forest.acyclic
  have haccess := events_access hp.forest.acyclic h.get_eq h.kind_eq
  have hcall := events_call hac' hnode' hkind'
  rw [hloc', h.events_scope hp] at hcall
  refine ⟨⟨_, _, _, _, haccess, hcall, ?_⟩, ?_, exists_close_call hac' hnode' hkind'⟩
  · exact fun q => (SameInk.refl q).run rfl
  have hperiod := line_periodPos_le member.loc
  rw [haccess, hcall]
  simp [Event.line, Script.args, closing, writeAt, line_closingPos, h.stop_line_eq hco]
  omega

/-- A call of the setter restates the assignment. -/
theorem restates_write (hco : s.tree.Coherent) {write new value arg : NodeId} {op : AssignOp} {nodeW node' : Node}
    (hnodeW : s.tree.get? write = some nodeW) (hkindW : nodeW.kind = .assign id op value)
    (hbegin : nodeW.loc.start? = node.loc.start?) (hnode' : s'.tree.get? new = some node')
    (hkind' : node'.kind = .call (some scope) (.synthetic (setterName member.name)) [arg])
    (hloc' : node'.loc = node.loc) (hhanded : bottomLine (s'.tree.events arg) = bottomLine (s.tree.events value)) :
    Restates s.tree s'.tree write new scope := by
  have hac' := h.resolved.proper.forest.acyclic
  have hassign := events_assign hp.forest.acyclic hnodeW hkindW
  have hcall := events_call hac' hnode' hkind'
  rw [hbegin, events_access hp.forest.acyclic h.get_eq h.kind_eq] at hassign
  rw [hloc', h.events_scope hp] at hcall
  have hsplit : s.tree.events write =
      [Event.stroke (.goto node.loc.start?), .enter write, .stroke (.goto node.loc.start?), .enter id] ++
        s.tree.events scope ++
        ([Event.stroke (.goto (periodPos member.loc)), .stroke (.write "."), .stroke (.goto member.loc.start?),
          .stroke (.write member.name), .leave id,
          .stroke (.glue (.spaced op.text) (s.tree.stop? id) (s.tree.start? value))] ++
          (s.tree.events value ++ [Event.leave write])) := by
    rw [hassign]
    simp only [List.append_assoc, List.cons_append, List.nil_append]
  refine ⟨⟨_, _, _, _, hsplit, hcall, ?_⟩, ?_, exists_close_call hac' hnode' hkind'⟩
  · exact fun q => sameInk_goto_twice q _ _ _ _
  have hperiod := line_periodPos_le member.loc
  rw [hassign, hcall]
  simp [Event.line, Script.args, Script.glue, list, listAfter, closing, writeAt, line_closingPos, h.stop_line_eq hco,
    hhanded]
  omega

/-- **The call restates what it takes the place of.** -/
theorem exists_restates (hco : s.tree.Coherent) :
    ∃ top new off loc, Placed s.tree s'.tree top (s.tree.site id) new off ∧
    (∀ x ∈ off, s.tree.Reaches (s.tree.site id) x) ∧ s'.tree.loc? new = some loc ∧
    loc.start? = s.tree.start? (s.tree.site id) ∧ Restates s.tree s'.tree (s.tree.site id) new scope := by
  have hnew : ∀ {new k}, s'.tree.kind? new = some k → s'.tree.loc? new = some node.loc →
      ∃ node', s'.tree.get? new = some node' ∧ node'.kind = k ∧ node'.loc = node.loc := fun hkind hloc => by
    obtain ⟨node', hnode', hk⟩ := Option.map_eq_some_iff.1 hkind
    exact ⟨node', hnode', hk, Option.some.inj ((parts_of_get? hnode').2.1.symm.trans hloc)⟩
  have hrewritten := h.rewritten
  cases hrewritten with
  | @read top new hread hplaced hcall hloc hfound =>
    have hsite : s.tree.site id = id := by
      refine site_of_held hp hplaced.held fun htarget => ?_
      obtain ⟨op, value, hk⟩ := target?_eq_some_iff.1 htarget
      exact hread op value hk
    obtain ⟨node', hnode', hkind', hloc'⟩ := hnew hcall hloc
    rw [hsite]
    refine ⟨top, new, [id], node.loc, hplaced, fun x hx => ?_, hloc, (start?_of_get? h.get_eq).symm,
      h.restates_read hp hco hnode' hkind' hloc'⟩
    rw [List.mem_singleton.1 hx]
    exact .refl
  | @write top write new value arg op hwrite hplaced hcall hloc hhanded =>
    have hsite : s.tree.site id = write := site_of_target? hp (target?_eq_some_iff.2 ⟨op, value, hwrite⟩)
    obtain ⟨nodeW, hnodeW, hkindW⟩ := Option.map_eq_some_iff.1 hwrite
    have hbegin : nodeW.loc.start? = node.loc.start? := by
      have hcoW := hco write nodeW hnodeW
      unfold Node.Coherent at hcoW
      rw [hkindW] at hcoW
      exact hcoW.trans (start?_of_get? h.get_eq)
    obtain ⟨node', hnode', hkind', hloc'⟩ := hnew hcall hloc
    rw [hsite]
    refine ⟨top, new, [write, id], node.loc, hplaced, fun x hx => ?_, hloc, ?_,
      h.restates_write hp hco hnodeW hkindW hbegin hnode' hkind' hloc'
        (h.bottomLine_handed hp hwrite hplaced hcall hhanded)⟩
    · rcases List.mem_cons.1 hx with rfl | hx
      · exact .refl
      · rw [List.mem_singleton.1 hx, ← hsite]
        exact s.tree.reaches_site id
    · rw [start?_of_get? hnodeW, hbegin]

end Resolution.Resolves

/-! ## The lines of the text -/

namespace Tree

open Pen Piece Script

variable {t t' : Tree} {old new scope x : NodeId} {front back back' : List Event}

theorem one_le_col {p : Pen} (h : p.Aligned) : 1 ≤ p.pos.col := by
  have hpos : p.pos = Pos.ofText p.out := h
  rw [hpos, Pos.ofText_eq]
  exact Nat.le_add_right 1 _

/-- **A node begins on the line of the text that was there before, and of the blanks before its first chunk.** -/
theorem exists_text_of_layout (hp : t.Proper) (hone : t.OneLine) (hL : t.events t.root = front ++ t.events x ++ back)
    {s : Span} (hs : t.print.layout.get? x = some s) :
    ∃ text : String, text.toList <+: (after (front ++ t.events x)).out.toList ∧
      1 + text.toList.count '\n' = s.start.line := by
  obtain ⟨node, hnode⟩ := contains_iff.1 (contains_of_layout hp hs)
  rw [layout_get? hp hnode hL] at hs
  obtain ⟨start, hink, rfl⟩ := Option.map_eq_some_iff.1 hs
  have haligned : (after front).pos = Pos.ofText (after front).out :=
    hone.aligned ⟨t.events x ++ back, by rw [hL, List.append_assoc]⟩
  rw [inkAt_eq] at hink
  split at hink
  · cases hink
  · refine ⟨(after front).out ++ textOf (lead ((after front).pieces (t.events x))), ?_, ?_⟩
    · have hlead : lead ((after front).pieces (t.events x)) ++ ((after front).pieces (t.events x)).dropWhile isBlank =
          (after front).pieces (t.events x) := List.takeWhile_append_dropWhile
      refine ⟨(textOf (((after front).pieces (t.events x)).dropWhile isBlank)).toList, ?_⟩
      rw [after_append, out_run, ← String.toList_append, String.append_assoc, ← textOf_append, hlead]
    · have hstart : Pos.ofText ((after front).out ++ textOf (lead ((after front).pieces (t.events x)))) = start := by
        rw [← Option.some.inj hink, haligned]
        unfold Pos.ofText
        rw [String.toList_append, List.foldl_append]
      rw [← hstart, Pos.ofText_eq]

/-- **Right after the call the pen is on the line where it was after what the call takes the place of**, and has written
the same up to the scope. -/
theorem Restates.onLine (h : Restates t t' old new scope) (hp : t.Proper) (hone : t.OneLine) (hone' : t'.OneLine)
    (hL : t.events t.root = front ++ t.events old ++ back) (hL' : t'.events t'.root = front ++ t'.events new ++ back')
    {s : Span} (hs : t.print.layout.get? scope = some s) (hcol : (after (front ++ t.events old)).pos.col ≠ 1) :
    ∃ text, OnLine text (after (front ++ t.events old)).pos.line (after (front ++ t.events old)) ∧
      OnLine text (after (front ++ t.events old)).pos.line (after (front ++ t'.events new)) ∧
      1 + text.toList.count '\n' = s.start.line := by
  obtain ⟨pre, pre', post, post', hold, hnew, hink⟩ := h.front
  have haligned : (after (front ++ t.events old)).Aligned := hone.aligned ⟨back, hL.symm⟩
  have haligned' : (after (front ++ t'.events new)).Aligned := hone'.aligned ⟨back', hL'.symm⟩
  have hL₀ : t.events t.root = (front ++ pre) ++ t.events scope ++ (post ++ back) := by
    rw [hL, hold]
    simp only [List.append_assoc]
  obtain ⟨text, hgrows, hline⟩ := exists_text_of_layout hp hone hL₀ hs
  have hscope : SameInk (after (front ++ pre ++ t.events scope)) (after (front ++ pre' ++ t.events scope)) := by
    rw [after_append, after_append, after_append, after_append]
    exact (hink _).run rfl
  refine ⟨text, ⟨?_, haligned, rfl, Nat.lt_of_le_of_ne (one_le_col haligned) hcol.symm⟩, ⟨?_, haligned', ?_, ?_⟩, hline⟩
  · rw [hold, ← List.append_assoc, ← List.append_assoc, after_append _ post]
    exact hgrows.trans (grows_run _ _)
  · rw [hnew, ← List.append_assoc, ← List.append_assoc, after_append _ post']
    rw [← hscope.out_eq] at hgrows
    exact hgrows.trans (grows_run _ _)
  · rw [after_append, after_append, line_run, line_run, h.bottom]
  · obtain ⟨es, text, hes, hne⟩ := h.close
    have hes' : (after (front ++ es)).Aligned := hone'.aligned
      ⟨[Event.stroke (.write text), .leave new] ++ back', by rw [hL', hes]; simp only [List.append_assoc]⟩
    have hpos : (after (front ++ t'.events new)).pos = ((after (front ++ es)).write text).pos := by
      rw [hes, ← List.append_assoc, after_append _ [_, _]]
      rfl
    have hfar := one_le_col hes'
    have hlen := length_pos hne
    rw [hpos, pos_write _ hne]
    show 1 < (after (front ++ es)).pos.col + (_ + text.length)
    omega

end Tree

namespace Resolution

open UniformAccess.Tree Pen Script

variable {s s' : Tracked} {layout : Option Layout} {p : Pos} {id scope : NodeId} {node : Node} {member : Ident}
  {found : List NodeId}

section

variable (hp : s.tree.Proper) (h : Resolves layout p s s' id node scope member found)
include hp h

/-- **What a call takes the place of has a place in the layout**: it writes at least the period. -/
theorem Resolves.exists_layout {x : NodeId} (hx : s.tree.Reaches x id) :
    ∃ span, s.tree.print.layout.get? x = some span := by
  have hperiod : Event.stroke (.write ".") ∈ s.tree.events id := by
    rw [events_access hp.forest.acyclic h.get_eq h.kind_eq]
    simp
  obtain ⟨front, back, hevents⟩ := exists_events_eq hp.forest.acyclic hx
  have hmem : Event.stroke (.write ".") ∈ s.tree.events x := by
    rw [hevents]
    exact List.mem_append_left _ (List.mem_append_right _ hperiod)
  have hcontains : s.tree.contains x = true := by
    rcases Relation.ReflTransGen.cases_head hx with rfl | ⟨c, hc, -⟩
    · exact contains_iff.2 ⟨node, h.get_eq⟩
    · exact contains_of_mem_children hc
  obtain ⟨q, hq⟩ := exists_layout_of_stroke hp hcontains hmem rfl (by decide)
  exact ⟨_, hq⟩

/-- What a call takes the place of begins no later than the scope. -/
theorem Resolves.start_le {span inner : Span} (hspan : s.tree.print.layout.get? (s.tree.site id) = some span)
    (hinner : s.tree.print.layout.get? scope = some inner) : span.start ≤ inner.start := by
  obtain ⟨outer, houter⟩ := h.exists_layout hp (x := id) .refl
  have hscope := (layout_nested hp h.scope_mem houter hinner).1
  rcases s.tree.site_cases id with hsite | htarget
  · rw [hsite, houter] at hspan
    exact Option.some.inj hspan ▸ hscope
  · exact (layout_nested hp (mem_children_of_place? (place?_of_target? htarget)) hspan houter).1.trans hscope

/-- **A complaint changes the text on the lines of the node that a call takes the place of, and on no others.** -/
theorem Resolves.sameLinesBut (hone : s.tree.OneLine) (hco : s.tree.Coherent) {span inner : Span}
    (hspan : s.tree.print.layout.get? (s.tree.site id) = some span)
    (hinner : s.tree.print.layout.get? scope = some inner) (hcol : span.stop.col ≠ 1) :
    SameLinesBut span.start.line span.stop.line s.tree.print.text s'.tree.print.text := by
  have hp' := h.resolved.proper
  have hone' := h.rewritten.oneLine hp hp' h.kind?_eq hone
  obtain ⟨top, new, off, loc, hplaced, hoff, hloc, hstart, hrestates⟩ := h.exists_restates hp hco
  obtain ⟨front, mid, mid', back, hL, hL', hmid, hmid'⟩ := hplaced.exists_events_eq hp hp' hoff hloc hstart
    (hp.reached top (contains_of_mem_children hplaced.held))
  rw [← hplaced.root_eq] at hL'
  obtain ⟨site, hsite⟩ := contains_iff.1 (contains_of_layout hp hspan)
  have hstop : span.stop = (after (front ++ s.tree.events (s.tree.site id))).pos := by
    rw [layout_get? hp hsite hL] at hspan
    obtain ⟨_, -, rfl⟩ := Option.map_eq_some_iff.1 hspan
    rfl
  obtain ⟨text, honline, honline', hline⟩ := hrestates.onLine hp hone hone' hL hL' hinner (hstop ▸ hcol)
  have hfree : ∀ st text, Event.stroke st ∈ mid.map Event.stroke ++ back → st.text? = some text → '\n' ∉ text.toList :=
    fun st text hst => hone.newline_not_mem (x := s.tree.root) (by rw [hL]; exact List.mem_append_right _ hst)
  have hfree' : ∀ st text, Event.stroke st ∈ mid'.map Event.stroke ++ back → st.text? = some text →
      '\n' ∉ text.toList :=
    fun st text hst => hone'.newline_not_mem (x := s'.tree.root) (by rw [hL']; exact List.mem_append_right _ hst)
  have habreast : Abreast text span.stop.line (after (s.tree.events s.tree.root))
      (after (s'.tree.events s'.tree.root)) := by
    rw [hL, hL', after_append _ (_ ++ back), after_append _ (_ ++ back), run_append, run_append, hstop]
    refine Abreast.run (fun st text hst => hfree st text (List.mem_append_right _ hst)) (.apart ?_ ?_)
    · exact honline.run_level hmid fun st hst text =>
        hfree st text (List.mem_append_left _ (List.mem_map_of_mem hst))
    · exact honline'.run_level hmid' fun st hst text =>
        hfree' st text (List.mem_append_left _ (List.mem_map_of_mem hst))
  exact habreast.sameLinesBut (hline ▸ Pos.line_le_line (h.start_le hp hspan hinner))

end

/-- **A complaint changes the text on the lines of the access, or of its assignment, and on no others**: the text has
as many lines as before, and the other lines are the same. The scope must write something, and what the call takes the
place of must not stop at the beginning of a line. -/
theorem resolve_sameLinesBut (hp : s.tree.Proper) (hone : s.tree.OneLine) (hco : s.tree.Coherent)
    (hresolve : resolve layout p s = .ok true s') : ∃ a scope member span,
      s.resolver.find? s.tree layout p = some a ∧ s.tree.kind? a = some (.fieldAccess scope member) ∧
      s.tree.print.layout.get? (s.tree.site a) = some span ∧
      ((s.tree.print.layout.get? scope).isSome → span.stop.col ≠ 1 →
        SameLinesBut span.start.line span.stop.line s.tree.print.text s'.tree.print.text) := by
  rcases (ends_resolve hp layout p).of_eq hresolve with ⟨hfalse, -⟩ | ⟨-, id, node, scope, member, found, h⟩
  · cases hfalse
  · obtain ⟨span, hspan⟩ := h.exists_layout hp (s.tree.reaches_site id)
    refine ⟨id, scope, member, span, h.find_eq, h.kind?_eq, hspan, fun hscope hcol => ?_⟩
    obtain ⟨inner, hinner⟩ := Option.isSome_iff_exists.1 hscope
    exact h.sameLinesBut hp hone hco hspan hinner hcol

/-- The tree of a source file with an assignment over two lines:
```
a
x.count =
    y b
c
```
-/
def overLines : Tree :=
  { root := ⟨0⟩
    cells := #[
      some ⟨none, .synthetic, .unit { types := [⟨1⟩, ⟨2⟩, ⟨6⟩, ⟨7⟩] }⟩,
      some ⟨some ⟨0⟩, .span ⟨⟨1, 1⟩, ⟨1, 2⟩⟩, .nameExpr "a"⟩,
      some ⟨some ⟨0⟩, .span ⟨⟨2, 1⟩, ⟨3, 6⟩⟩, .assign ⟨3⟩ .plain ⟨5⟩⟩,
      some ⟨some ⟨2⟩, .span ⟨⟨2, 1⟩, ⟨2, 8⟩⟩, .fieldAccess ⟨4⟩ (.placed ⟨2, 3⟩ "count")⟩,
      some ⟨some ⟨3⟩, .span ⟨⟨2, 1⟩, ⟨2, 2⟩⟩, .nameExpr "x"⟩,
      some ⟨some ⟨2⟩, .span ⟨⟨3, 5⟩, ⟨3, 6⟩⟩, .nameExpr "y"⟩,
      some ⟨some ⟨0⟩, .span ⟨⟨3, 7⟩, ⟨3, 8⟩⟩, .nameExpr "b"⟩,
      some ⟨some ⟨0⟩, .span ⟨⟨4, 1⟩, ⟨4, 2⟩⟩, .nameExpr "c"⟩] }

/-- The call of the setter is written over the lines of the assignment. -/
theorem resolve_sameLinesBut_overLines : ∃ s',
    resolve none ⟨2, 3⟩ ⟨overLines, { properties := ["count"], pending := [⟨3⟩] }⟩ = .ok true s' ∧
      overLines.print.text = "a\nx.count =\n    y b\nc\n" ∧
      SameLinesBut 2 3 overLines.print.text s'.tree.print.text := by
  have hp : overLines.Proper := by decide
  obtain ⟨b, s', hrun, ⟨-, -, hnone⟩ | ⟨rfl, -⟩⟩ :=
    ends_resolve (s := ⟨overLines, { properties := ["count"], pending := [⟨3⟩] }⟩) hp none ⟨2, 3⟩
  · exact absurd hnone (by decide)
  · refine ⟨s', hrun, by decide +kernel, ?_⟩
    obtain ⟨a, scope, member, span, hfind, hkind, hspan, hlines⟩ := resolve_sameLinesBut hp (by decide) (by decide) hrun
    obtain rfl : ⟨3⟩ = a := Option.some.inj ((by decide : _ = some ⟨3⟩).symm.trans hfind)
    have haccess : overLines.kind? ⟨3⟩ = some (.fieldAccess ⟨4⟩ (.placed ⟨2, 3⟩ "count")) := rfl
    cases haccess.symm.trans hkind
    obtain rfl : ⟨⟨2, 1⟩, ⟨3, 6⟩⟩ = span := Option.some.inj ((by decide +kernel : _ = some _).symm.trans hspan)
    exact hlines (by decide +kernel) (by decide)

/-- The tree of a source file that holds `.count` and nothing around it: the scope has the empty name and stops on the
second line. -/
def noScope : Tree :=
  { root := ⟨0⟩
    cells := #[
      some ⟨none, .synthetic, .unit { types := [⟨1⟩] }⟩,
      some ⟨some ⟨0⟩, .span ⟨⟨1, 1⟩, ⟨2, 8⟩⟩, .fieldAccess ⟨2⟩ (.placed ⟨2, 3⟩ "count")⟩,
      some ⟨some ⟨1⟩, .span ⟨⟨1, 1⟩, ⟨2, 2⟩⟩, .nameExpr ""⟩] }

/-- The tree of a source file that holds `x.count =` and nothing around it: the value has the empty name and is on the
third line. -/
def noValue : Tree :=
  { root := ⟨0⟩
    cells := #[
      some ⟨none, .synthetic, .unit { types := [⟨1⟩] }⟩,
      some ⟨some ⟨0⟩, .span ⟨⟨1, 1⟩, ⟨3, 1⟩⟩, .assign ⟨2⟩ .plain ⟨4⟩⟩,
      some ⟨some ⟨1⟩, .span ⟨⟨1, 1⟩, ⟨1, 8⟩⟩, .fieldAccess ⟨3⟩ (.placed ⟨1, 3⟩ "count")⟩,
      some ⟨some ⟨2⟩, .span ⟨⟨1, 1⟩, ⟨1, 2⟩⟩, .nameExpr "x"⟩,
      some ⟨some ⟨1⟩, .span ⟨⟨3, 1⟩, ⟨3, 1⟩⟩, .nameExpr ""⟩] }

/-- **Both conditions are needed.** Without a scope the access is on the second line, and the call begins on the first.
Without a value the last line is empty, and after the rewrite it holds a bracket and the text has a line more. -/
theorem not_sameLinesBut_noText :
    (noScope.Proper ∧ noScope.OneLine ∧ noScope.Coherent ∧
      noScope.print.layout.get? ⟨1⟩ = some ⟨⟨2, 2⟩, ⟨2, 8⟩⟩ ∧ ∃ s',
        resolve none ⟨2, 3⟩ ⟨noScope, { properties := ["count"], pending := [⟨1⟩] }⟩ = .ok true s' ∧
          ¬ SameLinesBut 2 2 noScope.print.text s'.tree.print.text) ∧
    noValue.Proper ∧ noValue.OneLine ∧ noValue.Coherent ∧
      noValue.print.layout.get? ⟨1⟩ = some ⟨⟨1, 1⟩, ⟨3, 1⟩⟩ ∧ ∃ s',
        resolve none ⟨1, 3⟩ ⟨noValue, { properties := ["count"], pending := [⟨2⟩] }⟩ = .ok true s' ∧
          ¬ SameLinesBut 1 3 noValue.print.text s'.tree.print.text := by
  refine ⟨⟨by decide, by decide, by decide, by decide +kernel, _, rfl, ?_⟩,
    by decide, by decide, by decide, by decide +kernel, _, rfl, ?_⟩
  · decide +kernel
  · decide +kernel

end Resolution

end UniformAccess
