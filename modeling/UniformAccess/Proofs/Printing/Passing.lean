import UniformAccess.Proofs.Printing.Ahead
import UniformAccess.Proofs.Printing.Exact
import UniformAccess.Proofs.Printing.InStep
import UniformAccess.Proofs.Printing.Place
import UniformAccess.Proofs.Tree.Built
/-!
# Where the pen passes

A tree that is written where it says takes the pen past the end of a class at one moment only: with the closing brace,
right before the class is left (`Exact.passes`). So if room is made after classes, every other stroke stays on one side
of the room (`Exact.before_stroke`). That is what the strokes have to satisfy for two pens to stay in step
(`Exact.steady`), and it keeps the tokens of a node together (`Exact.rigid`).
-/
namespace UniformAccess

open Pen

theorem Node.mem_positions {n : Node} {q : Pos} :
    q ∈ n.positions ↔ ∃ l ∈ n.loc :: n.kind.innerLocs, l.start? = some q ∨ l.stop? = some q := by
  unfold Node.positions
  simp only [List.mem_flatMap, List.mem_append, Option.mem_toList]

theorem Node.lines_eq (n : Node) : n.lines = n.positions.map (·.line) := by
  unfold Node.lines Node.positions
  rw [List.map_flatMap]

namespace Pen

/-- The pen never leaves the columns that count from one. -/
theorem one_le_col_run {p : Pen} (es : List Event) (h : 1 ≤ p.pos.col) : 1 ≤ (p.run es).pos.col := by
  induction es generalizing p with
  | nil => exact h
  | cons e es ih =>
    refine ih ?_
    match e with
    | .enter _ => exact h
    | .leave _ => exact h
    | .stroke s =>
      show 1 ≤ (p.stroke s).pos.col
      by_cases hs : ∃ q, s = .goto (some q)
      · obtain ⟨q, rfl⟩ := hs
        have hnew : 1 ≤ (p.newlines (q.line - p.pos.line)).pos.col := by
          rw [(newlines_spec _ p).1]
          split
          · exact h
          · exact Nat.le_refl 1
        show 1 ≤ (p.goto q).pos.col
        unfold goto
        dsimp only
        split
        · rw [pos_spaces, Pos.col_right]
          exact hnew.trans (Nat.le_add_right _ _)
        · exact hnew
      · have hline := line_stroke p s (not_exists.1 hs)
        have hle := (Wrote.stroke p s).pos_le
        rw [Pos.le_def] at hle
        omega

theorem one_le_col (es : List Event) : 1 ≤ (after es).pos.col := one_le_col_run es (Nat.le_refl 1)

end Pen

namespace Tree

variable {t : Tree} {x c : NodeId} {node : Node} {s : Span} {q : Pos} {text : String} {front back : List Event}
  {st : Stroke}

theorem start?_of_span (h : t.get? x = some node) (hs : node.loc = .span s) : t.start? x = some s.start := by
  unfold start?
  rw [h, Option.bind_some, hs]
  rfl

theorem stop?_of_span (h : t.get? x = some node) (hs : node.loc = .span s) : t.stop? x = some s.stop := by
  unfold stop?
  rw [h, Option.bind_some, hs]
  rfl

/-! ## Where the pen is sent -/

/-- **The pen is not sent below the locations of what it writes.** -/
theorem Above.line_le {bound : Nat} (h : Above bound t x) (hq : .stroke (.goto (some q)) ∈ t.events x) :
    q.line ≤ bound := by
  obtain ⟨y, node, hy, hnode, hq⟩ := exists_of_stroke_mem hq
  have hline : ∀ l ∈ node.loc :: node.kind.innerLocs, ∀ q, l.start? = some q ∨ l.stop? = some q → q.line ≤ bound :=
    fun l hl q hq => h y node hy hnode q.line <| by
      rw [Node.lines_eq]
      exact List.mem_map_of_mem (Node.mem_positions.2 ⟨l, hl, hq⟩)
  rcases hq with hstart | hscript
  · exact hline _ List.mem_cons_self q (.inl (Stroke.goto.inj hstart).symm)
  · have haims : Script.Aims (·.line ≤ bound) (node.script t) := Node.aims_script
      (fun l hl q hq => hline l (List.mem_cons_of_mem _ hl) q (.inl hq))
      (fun l hl q hq _ => hline l (List.mem_cons_of_mem _ hl) q (.inl hq))
      (fun _ _ q hq => hline _ List.mem_cons_self q (.inr hq))
    exact haims q hscript

namespace Exact

section

variable (hp : t.Proper) (hx : t.Exact) (hnode : t.get? x = some node) (hs : node.loc = .span s) (hne : x ≠ t.root)
include hp hx hnode hs hne

/-- **A node that closes with a token is left right after it, and stops there.** -/
theorem exists_close (hclose : node.kind.closer? = some text) : ∃ front back,
    t.events t.root = front ++ Event.stroke (.write text) :: .leave x :: back ∧
    ((after front).write text).pos = s.stop := by
  obtain ⟨before, behind, hL⟩ := exists_events_eq hp.forest.acyclic (hp.reached x (contains_iff.2 ⟨node, hnode⟩))
  obtain ⟨items, hitems⟩ := Node.exists_script_eq (t := t) hclose
  have hscript : t.eventsOf (node.script t) =
      t.eventsOf items ++ [Event.stroke (.goto (Script.closingPos text node.loc.stop?)), .stroke (.write text)] := by
    rw [hitems, eventsOf_append]
    rfl
  have hstop := (at_node hp hx hnode hs hne hL).2.2.2
  have hevents := events_eq hp.forest.acyclic hnode
  rw [hscript] at hevents
  refine ⟨before ++ Event.stroke (.goto node.loc.start?) :: .enter x :: t.eventsOf items ++
    [Event.stroke (.goto (Script.closingPos text node.loc.stop?))], behind, ?_, ?_⟩
  · rw [hL, hevents]
    simp
  · rw [← hstop, hevents]
    have hsplit : before ++ Event.stroke (.goto node.loc.start?) :: .enter x :: (t.eventsOf items ++
        [Event.stroke (.goto (Script.closingPos text node.loc.stop?)), .stroke (.write text)] ++ [Event.leave x]) =
        (before ++ Event.stroke (.goto node.loc.start?) :: .enter x :: t.eventsOf items ++
          [Event.stroke (.goto (Script.closingPos text node.loc.stop?))]) ++
          [Event.stroke (.write text), .leave x] := by simp
    rw [hsplit, after_append _ [_, _]]
    rfl

theorem length_lt_col (hclose : node.kind.closer? = some text) : text.length < s.stop.col := by
  obtain ⟨front, back, -, hstop⟩ := exists_close hp hx hnode hs hne hclose
  have hcol := one_le_col front
  rw [← hstop, pos_write _ (Kind.text_ne_of_closer? hclose), Pos.col_right]
  omega

end

section

variable (hp : t.Proper) (hx : t.Exact)
include hp hx

theorem one_le_col_of_goto (hq : .stroke (.goto (some q)) ∈ t.events t.root) : 1 ≤ q.col := by
  obtain ⟨y, node, -, hnode, hq⟩ := exists_of_stroke_mem hq
  have hcol : ∀ l ∈ node.loc :: node.kind.innerLocs, ∀ q, l.start? = some q ∨ l.stop? = some q → 1 ≤ q.col :=
    fun l hl q hq => (hx.columns y node hnode q (Node.mem_positions.2 ⟨l, hl, hq⟩)).1
  rcases hq with hstart | hscript
  · exact hcol _ List.mem_cons_self q (.inl (Stroke.goto.inj hstart).symm)
  · refine Node.aims_script (A := (1 ≤ ·.col)) (fun l hl q hq => ?_) (fun l hl q hq hone => ?_)
      (fun text htext q hq => ?_) q hscript
    · exact hcol l (List.mem_cons_of_mem _ hl) q (.inl hq)
    · rw [Pos.col_left]
      omega
    · have hne : y ≠ t.root := hp.ne_root_of_kind? (kind?_of_get? hnode) fun u hu => by
        rw [hu] at htext
        cases htext
      obtain ⟨s, hs⟩ := hx.span_of_ne hnode hne
      rw [hs] at hq
      obtain rfl : s.stop = q := Option.some.inj hq
      have := length_lt_col hp hx hnode hs hne htext
      rw [Pos.col_left]
      omega

/-! ## Past the end of a class -/

/-- **The pen comes to the end of a class with its closing brace.** -/
theorem passes {d : ClassDecl} (hnode : t.get? c = some node) (hkind : node.kind = .classDecl d)
    (hs : node.loc = .span s) (hL : t.events t.root = front ++ Event.stroke st :: back) :
    s.stop ≤ (after front).pos ∨ ((after front).stroke st).pos < s.stop ∨ ∃ rest, back = .leave c :: rest := by
  have hne : c ≠ t.root := hp.ne_root_of_kind? ((kind?_of_get? hnode).trans (congrArg some hkind)) nofun
  have hcloser : node.kind.closer? = some "\x7d" := by rw [hkind]; rfl
  obtain ⟨before, behind, hclose, hstop⟩ := exists_close hp hx hnode hs hne hcloser
  have hlt : (after before).pos < s.stop := by
    rw [← hstop]
    exact (inked_write _ (by decide)).pos_lt
  rcases List.append_eq_append_iff.1 (hL.symm.trans hclose) with ⟨mid, hmid, hrest⟩ | ⟨mid, hmid, hrest⟩
  · cases mid with
    | nil =>
      cases hrest
      exact .inr (.inr ⟨_, rfl⟩)
    | cons e mid =>
      cases hrest
      refine .inr (.inl (lt_of_le_of_lt ?_ hlt))
      rw [hmid, ← List.singleton_append, ← List.append_assoc, after_append (front ++ [_]), after_append front]
      exact le_run _ mid
  · cases mid with
    | nil =>
      cases hrest
      exact .inr (.inr ⟨_, rfl⟩)
    | cons e mid =>
      obtain ⟨rfl, -⟩ := List.cons.inj hrest
      refine .inl ?_
      rw [hmid, after_append, ← hstop]
      exact le_run _ mid

end

end Exact

/-! ## Room after classes -/

/-- **Room is made only where the classes in `C` stop**, and nothing else has a position there. -/
structure RoomAfter (r : Room) (C : NodeId → Prop) (t : Tree) : Prop where
  classes : ∀ c, C c → ∃ d, t.kind? c = some (.classDecl d)
  points : ∀ m ∈ r, ∃ c node s, C c ∧ t.get? c = some node ∧ node.loc = .span s ∧ m.1 = s.stop
  clear : ∀ c node s, C c → t.get? c = some node → node.loc = .span s → ∀ x n, t.get? x = some n → x ≠ c →
    s.stop ∉ n.positions

namespace Exact

variable {r : Room} {C K : NodeId → Prop} (hp : t.Proper) (hx : t.Exact) (hr : RoomAfter r C t)
include hp hx hr

/-- **No other stroke passes room.** -/
theorem before_stroke (hL : t.events t.root = front ++ Event.stroke st :: back)
    (hback : ∀ c rest, C c → back ≠ .leave c :: rest) :
    r.before ((after front).stroke st).pos = r.before (after front).pos := by
  refine Room.before_congr fun m hm => ?_
  obtain ⟨c, node, s, hc, hnode, hs, hms⟩ := hr.points m hm
  obtain ⟨d, hd⟩ := hr.classes c hc
  have hkind := kind_eq_of_kind? hnode hd
  rw [hms]
  rcases passes hp hx hnode hkind hs hL with hle | hlt | ⟨rest, hrest⟩
  · exact ⟨fun _ => hle, fun _ => hle.trans (Wrote.stroke _ st).pos_le⟩
  · exact ⟨fun hle => absurd hlt (not_lt.2 hle), fun hle => hle.trans (Wrote.stroke _ st).pos_le⟩
  · exact absurd hrest (hback c rest hc)

omit hx hr in
/-- What follows some items is more of the script, or what comes after it. -/
theorem eventsOf_ne_leave {items : List Item} (hitems : ∀ y, .child y ∈ items → t.contains y = true) {rest : List Event}
    (hback : items = [] → back ≠ .leave c :: rest) : t.eventsOf items ++ back ≠ .leave c :: rest := by
  cases items with
  | nil => exact hback rfl
  | cons item items =>
    cases item with
    | stroke st => exact nofun
    | child y =>
      obtain ⟨node, hnode⟩ := contains_iff.1 (hitems y List.mem_cons_self)
      rw [eventsOf_child, events_eq hp.forest.acyclic hnode]
      exact nofun

/-- **On the way to the next child no room is passed.** -/
theorem before_firstChild {items : List Item} (hitems : ∀ y, .child y ∈ items → t.contains y = true ∧ y ≠ t.root)
    (hL : t.events t.root = front ++ t.eventsOf items ++ back) (hfirst : Script.firstChild? items = some x)
    (hstart : t.start? x = some q) : (after front).pos ≤ q ∧ r.before q = r.before (after front).pos := by
  induction items generalizing front with
  | nil => cases hfirst
  | cons item items ih =>
    have hrest : ∀ y, .child y ∈ items → t.contains y = true ∧ y ≠ t.root := fun y hy =>
      hitems y (List.mem_cons_of_mem _ hy)
    cases item with
    | child y =>
      cases hfirst
      obtain ⟨hxc, hne⟩ := hitems x List.mem_cons_self
      obtain ⟨node, hnode⟩ := contains_iff.1 hxc
      obtain ⟨s, hs⟩ := hx.span_of_ne hnode hne
      rw [start?_of_span hnode hs] at hstart
      cases hstart
      have hL' : t.events t.root = front ++ t.events x ++ (t.eventsOf items ++ back) := by
        rw [hL]
        simp
      obtain ⟨hle, hat, -, -⟩ := at_node hp hx hnode hs hne hL'
      have hgoto : t.events t.root = front ++ Event.stroke (.goto (some s.start)) ::
          (.enter x :: (t.eventsOf (node.script t) ++ Event.leave x :: (t.eventsOf items ++ back))) := by
        rw [events_around hp hnode hs hL']
        simp
      have hb := before_stroke hp hx hr hgoto fun c rest _ => nofun
      have hpos : (after (front ++ [Event.stroke (.goto (some s.start))])).pos =
          ((after front).stroke (.goto (some s.start))).pos := by
        rw [after_append]
        rfl
      rw [← hpos, hat] at hb
      exact ⟨hle, hb⟩
    | stroke st =>
      have hL' : t.events t.root = front ++ Event.stroke st :: (t.eventsOf items ++ back) := by
        rw [hL]
        simp
      have hb := before_stroke hp hx hr hL' fun c rest _ =>
          eventsOf_ne_leave hp (fun y hy => (hrest y hy).1) fun hnil => by
        rw [hnil] at hfirst
        cases hfirst
      have hafter : after (front ++ [Event.stroke st]) = (after front).stroke st := after_append front [_]
      have hsplit : t.events t.root = (front ++ [Event.stroke st]) ++ t.eventsOf items ++ back := by
        rw [hL']
        simp
      obtain ⟨hle, hbefore⟩ := ih hrest hsplit hfirst
      rw [hafter] at hle hbefore
      exact ⟨(Wrote.stroke _ st).pos_le.trans hle, hbefore.trans hb⟩

/-- **A stroke of a script that passes no room is steady.** -/
theorem steady {items : List Item} (hK : ∀ x, K x → t.contains x = true ∧ x ≠ t.root)
    (hitems : ∀ y, .child y ∈ items → t.contains y = true ∧ y ≠ t.root) (hheeds : Script.Heeds t (.stroke st :: items))
    (hL : t.events t.root = front ++ Event.stroke st :: (t.eventsOf items ++ back))
    (hback : ∀ c rest, C c → items = [] → back ≠ .leave c :: rest) : Steady r K (after front) st := by
  have hmem : .stroke st ∈ t.events t.root := by
    rw [hL]
    exact List.mem_append_right _ List.mem_cons_self
  have hL' : t.events t.root = (front ++ [Event.stroke st]) ++ (t.eventsOf items ++ back) := by
    rw [hL]
    simp
  have hafter : after (front ++ [Event.stroke st]) = (after front).stroke st := after_append front [_]
  have hb := before_stroke hp hx hr hL fun c rest hc =>
    eventsOf_ne_leave hp (fun y hy => (hitems y hy).1) (hback c rest hc)
  refine ⟨hb, fun x hpend hKx hpend' => ?_, fun x hpend hKx hnot => ?_, fun g prev q hst => ?_, fun q hst => ?_,
    fun g prev next hst => ?_⟩
  · obtain ⟨hxc, hne⟩ := hK x hKx
    obtain ⟨node, hnode⟩ := contains_iff.1 hxc
    obtain ⟨s, hs⟩ := hx.span_of_ne hnode hne
    rw [← hafter] at hpend' ⊢
    rw [(of_pending hp hx hL' hpend' hne hnode hs).1, (of_pending hp hx hL hpend hne hnode hs).1]
  · obtain ⟨hxc, hne⟩ := hK x hKx
    obtain ⟨node, hnode⟩ := contains_iff.1 hxc
    obtain ⟨s, hs⟩ := hx.span_of_ne hnode hne
    obtain ⟨hpos, hbegin⟩ := of_pending hp hx hL hpend hne hnode hs
    rw [hpos]
    exact hbegin st _ rfl hnot
  · rw [hst] at hheeds
    obtain ⟨y, hfirst, hstart⟩ := hheeds.1 q rfl
    have hsplit : t.events t.root = (front ++ [Event.stroke st]) ++ t.eventsOf items ++ back := by
      rw [hL']
      simp
    have hahead := before_firstChild hp hx hr hitems hsplit hfirst hstart
    rw [hafter, hb] at hahead
    exact hahead
  · exact one_le_col_of_goto hp hx (hst ▸ hmem)
  · obtain ⟨y, node, -, -, hgoto | hscript⟩ := exists_of_stroke_mem hmem
    · rw [hst] at hgoto
      cases hgoto
    · exact node.solid_script t g prev next (hst ▸ hscript)

/-! ## Tokens that stay together -/

section

-- a node after which no room is made
variable (hnode : t.get? x = some node) (hs : node.loc = .span s) (hne : x ≠ t.root) (hxC : ¬ C x)
include hnode hxC

section

include hs

/-- No stroke of its script passes room. -/
theorem before_stroke_of_script {items rest : List Item} (hL : t.events t.root = front ++ t.events x ++ back)
    (hscript : node.script t = items ++ Item.stroke st :: rest) :
    t.events t.root = (front ++ Event.stroke (.goto (some s.start)) :: .enter x :: t.eventsOf items) ++
        Event.stroke st :: (t.eventsOf rest ++ Event.leave x :: back) ∧
      r.before ((after (front ++ Event.stroke (.goto (some s.start)) :: .enter x :: t.eventsOf items)).stroke st).pos =
        r.before (after (front ++ Event.stroke (.goto (some s.start)) :: .enter x :: t.eventsOf items)).pos := by
  have hsplit : t.events t.root = (front ++ Event.stroke (.goto (some s.start)) :: .enter x :: t.eventsOf items) ++
      Event.stroke st :: (t.eventsOf rest ++ Event.leave x :: back) := by
    rw [events_around hp hnode hs hL, hscript, eventsOf_append, eventsOf_stroke]
    simp
  refine ⟨hsplit, before_stroke hp hx hr hsplit fun c more hc => eventsOf_ne_leave hp (fun y hy => ?_)
    fun _ hleave => ?_⟩
  · refine hp.contained x y ?_
    rw [children_of_get? hnode]
    exact Node.mem_children_of_child (by rw [hscript]; exact List.mem_append_right _ (List.mem_cons_of_mem _ hy))
  · cases hleave
    exact hxC hc

/-- No room is made between a child and a parenthesis after it. -/
theorem before_paren {items rest : List Item} {y : NodeId}
    (hscript : node.script t = items ++ .child y :: (Script.write ")" ++ rest)) (hq : t.stop? y = some q) :
    r.before (q.right 1) = r.before q := by
  have hy : y ∈ t.children x := by
    rw [children_of_get? hnode]
    exact Node.mem_children_of_child (by rw [hscript]; exact List.mem_append_right _ List.mem_cons_self)
  obtain ⟨ynode, hynode⟩ := contains_iff.1 (hp.contained x y hy)
  have hyr : y ≠ t.root := by
    rintro rfl
    exact hp.forest.free x t.root hy List.mem_cons_self
  obtain ⟨ys, hys⟩ := hx.span_of_ne hynode hyr
  obtain rfl : ys.stop = q := Option.some.inj ((stop?_of_span hynode hys).symm.trans hq)
  obtain ⟨before, behind, hL⟩ := exists_events_eq hp.forest.acyclic (hp.reached x (contains_iff.2 ⟨node, hnode⟩))
  have hscript' : node.script t = (items ++ [Item.child y]) ++ Item.stroke (.write ")") :: rest :=
    hscript.trans (List.append_assoc items [_] _).symm
  obtain ⟨hsplit, hb⟩ := before_stroke_of_script hp hx hr hnode hs hxC hL hscript'
  have hafter : before ++ Event.stroke (.goto (some s.start)) :: .enter x :: t.eventsOf (items ++ [.child y]) =
      (before ++ Event.stroke (.goto (some s.start)) :: .enter x :: t.eventsOf items) ++ t.events y := by
    simp
  rw [hafter] at hsplit hb
  have hpos := (at_node hp hx hynode hys hyr hsplit).2.2.2
  have hlead : ∀ p : Pen, p.lead ")" = 0 := fun p => by
    unfold lead joins
    rw [show (")".toList.head?.any isIdentChar) = false by decide, Bool.and_false]
    rfl
  change r.before (Pen.write _ ")").pos = _ at hb
  rwa [pos_write _ (by decide), hlead, hpos] at hb

include hne

/-- No room is made within its closing token. -/
theorem before_closer (hclose : node.kind.closer? = some text) :
    r.before (s.stop.left text.length) = r.before s.stop := by
  obtain ⟨front, back, hL, hstop⟩ := exists_close hp hx hnode hs hne hclose
  have hb := before_stroke hp hx hr hL fun c rest hc h => by
    cases h
    exact hxC hc
  change r.before ((after front).write text).pos = _ at hb
  have hpos : s.stop = ((after front).pos.right ((after front).lead text)).right text.length := by
    rw [← hstop, pos_write _ (Kind.text_ne_of_closer? hclose), Pos.right_right]
  have hleft : s.stop.left text.length = (after front).pos.right ((after front).lead text) := by
    rw [hpos, Pos.left_right]
  rw [hstop] at hb
  rw [hb, hleft]
  refine Room.before_eq_of_le (Pos.le_right _ _) ?_ hb
  rw [hpos]
  exact Pos.le_right _ _

/-- No room is made within its keyword. -/
theorem before_keyword {word : String} {rest : List Item} (hscript : node.script t = Script.write word ++ rest) :
    r.before (s.start.right word.length) = r.before s.start := by
  by_cases hword : word = ""
  · rw [hword]
    rfl
  obtain ⟨before, behind, hL⟩ := exists_events_eq hp.forest.acyclic (hp.reached x (contains_iff.2 ⟨node, hnode⟩))
  have hfirst : node.script t = [] ++ Item.stroke (.write word) :: rest := hscript
  obtain ⟨hsplit, hb⟩ := before_stroke_of_script hp hx hr hnode hs hxC hL hfirst
  rw [eventsOf_nil] at hsplit hb
  have hentered : after (before ++ [Event.stroke (.goto (some s.start)), .enter x]) =
      (after (before ++ [Event.stroke (.goto (some s.start))])).enter x := by
    rw [show before ++ [Event.stroke (.goto (some s.start)), .enter x] =
      (before ++ [Event.stroke (.goto (some s.start))]) ++ [Event.enter x] by simp, after_append]
    rfl
  have hpend : x ∈ (after (before ++ [Event.stroke (.goto (some s.start)), .enter x])).pending := by
    rw [hentered]
    exact List.mem_cons_self
  have hpos : (after (before ++ [Event.stroke (.goto (some s.start)), .enter x])).pos = s.start := by
    rw [hentered]
    exact (at_node hp hx hnode hs hne hL).2.1
  have hbegin := (of_pending hp hx hsplit hpend hne hnode hs).2 (.write word) _ rfl (by
    show x ∉ (Pen.write _ word).pending
    rw [pending_write _ hword]
    exact List.not_mem_nil)
  -- the word begins at the start of the node, so no space goes before it
  have hlead : (after (before ++ [Event.stroke (.goto (some s.start)), .enter x])).lead word = 0 := by
    change (Pen.write _ word).starts.get? x = _ at hbegin
    rw [starts_write _ hword, NodeMap.get?_insertAll, if_pos hpend, hpos] at hbegin
    have := congrArg Pos.col (Option.some.inj hbegin)
    rw [Pos.col_right] at this
    omega
  change r.before (Pen.write _ word).pos = _ at hb
  rwa [pos_write _ hword, hlead, Nat.zero_add, hpos] at hb

end

omit hp in
/-- No room is made between a name in it and the column before. -/
theorem before_name {l : Loc} (hl : l ∈ node.kind.innerLocs) (hq : l.start? = some q) :
    r.before (q.left 1) = r.before q := by
  -- the one position that lies between a name and the column before it is that of the name
  refine Room.before_congr fun m hm => ?_
  obtain ⟨c, cnode, cs, hc, hcnode, hcs, hms⟩ := hr.points m hm
  have hq' : q ∈ node.positions := Node.mem_positions.2 ⟨l, List.mem_cons_of_mem _ hl, .inl hq⟩
  have hxc : x ≠ c := fun hxc => hxC (hxc ▸ hc)
  have hmq : m.1 ≠ q := fun hmq => hr.clear c cnode cs hc hcnode hcs x node hnode hxc (hms ▸ hmq ▸ hq')
  have hcol := (hx.columns x node hnode q hq').1
  rw [Pos.le_def, Pos.le_def, Pos.line_left, Pos.col_left]
  have hext : ¬ (m.1.line = q.line ∧ m.1.col = q.col) := fun h => hmq (Pos.ext h.1 h.2)
  omega

include hne

/-- **No room is made within the tokens of a node**, unless it is a class after which room is made. -/
theorem rigid : node.Rigid r t := by
  obtain ⟨s, hs⟩ := hx.span_of_ne hnode hne
  refine ⟨fun text hclose q hq => ?_, fun l hl q hq => before_name hx hr hnode hxC hl hq,
    fun word rest hscript q hq => ?_, fun _ y _ hscript q hq => before_paren hp hx hr hnode hs hxC hscript hq⟩
  · rw [hs] at hq
    cases hq
    exact before_closer hp hx hr hnode hs hne hxC hclose
  · rw [hs] at hq
    cases hq
    exact before_keyword hp hx hr hnode hs hne hxC hscript

end

end Exact

end Tree

end UniformAccess
