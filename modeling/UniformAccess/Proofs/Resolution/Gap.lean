import UniformAccess.Proofs.Printing.Mapped
import UniformAccess.Proofs.Resolution.Match
/-!
# Members after a gap

The printer sends the pen to the place of the period and to that of the name, and so a name may stand anywhere after
its scope. A complaint is matched by the scope alone, whose end has to be a column before. So the access whose name is
written at the place of a complaint is found exactly if only the period stands between its scope and its name; and if
there is a gap, no other access is mistaken for it (`resolve_at_name`).
-/
namespace UniformAccess

namespace Pos

variable {p q : Pos}

theorem right_le_right (h : p ≤ q) (n : Nat) : p.right n ≤ q.right n := by
  rw [le_def] at h ⊢
  simp only [line_right, col_right]
  omega

theorem right_lt_right (h : p < q) (n : Nat) : p.right n < q.right n := by
  rw [lt_def] at h ⊢
  simp only [line_right, col_right]
  omega

end Pos

/-! ## From the scope to the name -/

namespace Pen

variable {p : Pen} {text : String} {member : Ident}

/-- **The pen stays where it is, or goes ahead** and leaves blanks behind. -/
theorem goto_eq_or_lt (p : Pen) (q : Pos) : p.goto q = p ∨ p.pos < (p.goto q).pos ∧ Blank (p.goto q).last := by
  rcases lt_or_ge p.pos q with h | h
  · refine .inr ?_
    by_cases hcol : 1 ≤ q.col
    · obtain ⟨hpos, hlast⟩ := goto_of_lt h hcol
      exact ⟨h.trans_eq hpos.symm, hlast⟩
    · -- a target off the page is on a later line, and the pen stops at the beginning of that line
      rw [Pos.lt_def] at h
      obtain ⟨hpos, -, -, -, hlast⟩ := newlines_spec (q.line - p.pos.line) p
      rw [if_neg (by omega)] at hpos
      have hgoto : p.goto q = p.newlines (q.line - p.pos.line) := by
        unfold goto
        dsimp only
        rw [hpos, show q.col - 1 = 0 by omega, spaces, ite_self]
      rw [hgoto]
      refine ⟨?_, .inr (.inr (hlast (by omega)))⟩
      rw [hpos, Pos.lt_def]
      simp only
      omega
  · exact .inl (goto_of_le h)

theorem stroke_goto_eq_or_lt (p : Pen) (target : Option Pos) :
    p.stroke (.goto target) = p ∨
      p.pos < (p.stroke (.goto target)).pos ∧ Blank (p.stroke (.goto target)).last := by
  cases target with
  | none => exact .inl rfl
  | some q => exact goto_eq_or_lt p q

/-- After a character that is no letter a text is written as it is. -/
theorem write_apart (h : p.last.any isIdentChar = false) (text : String) :
    (p.write text).out = p.out ++ text ∧ (p.write text).pos = p.pos.right text.length := by
  unfold write
  split
  · rename_i hnil
    rw [String.toList_eq_nil_iff.1 hnil]
    exact ⟨String.append_empty.symm, rfl⟩
  · rw [h]
    exact ⟨rfl, rfl⟩

theorem write_period (p : Pen) : (p.write ".").out = p.out ++ "." ∧ (p.write ".").pos = p.pos.right 1 ∧
    (p.write ".").last = some '.' := by
  have hfirst : isIdentChar '.' = false := by decide
  have hlength : ".".length = 1 := by decide
  unfold write
  simp [hfirst, hlength]

/-- The pen in front of the name of a member, if it was at the end of the scope. -/
def beforeName (p : Pen) (member : Ident) : Pen :=
  ((p.stroke (.goto (Script.periodPos member.loc))).write ".").stroke (.goto member.loc.start?)

theorem last_beforeName (p : Pen) (member : Ident) : (p.beforeName member).last.any isIdentChar = false := by
  unfold beforeName
  rcases stroke_goto_eq_or_lt _ member.loc.start? with heq | ⟨-, hblank⟩
  · rw [heq, (write_period _).2.2]
    decide
  · exact hblank.not_ident

theorem right_le_beforeName (p : Pen) (member : Ident) : p.pos.right 1 ≤ (p.beforeName member).pos := by
  have hperiod := (Wrote.stroke p (.goto (Script.periodPos member.loc))).pos_le
  refine (Pos.right_le_right hperiod 1).trans ?_
  rw [← (write_period _).2.1]
  exact (Wrote.stroke _ (.goto member.loc.start?)).pos_le

/-- **Only the period stands in front of the name if the name is a column after the scope**, for the pen does not go
anywhere without moving. -/
theorem out_beforeName (h : (p.beforeName member).pos = p.pos.right 1) : (p.beforeName member).out = p.out ++ "." := by
  have hperiod : p.stroke (.goto (Script.periodPos member.loc)) = p := by
    refine (stroke_goto_eq_or_lt p _).resolve_right fun ⟨hlt, _⟩ => ?_
    have hname := (Wrote.stroke ((p.stroke (.goto (Script.periodPos member.loc))).write ".")
      (.goto member.loc.start?)).pos_le
    rw [(write_period _).2.1] at hname
    exact ((Pos.right_lt_right hlt 1).trans_le hname).ne' h
  unfold beforeName at h ⊢
  rw [hperiod] at h ⊢
  rcases stroke_goto_eq_or_lt (p.write ".") member.loc.start? with heq | ⟨hlt, -⟩
  · rw [heq, (write_period p).1]
  · rw [h, (write_period p).2.1] at hlt
    exact absurd hlt (lt_irrefl _)

end Pen

namespace Tree

open Pen

variable {t : Tree} {a b x y z scope scope' : NodeId} {member member' : Ident} {p : Pos}

/-! ## One name, one access -/

/-- **An access is written by writing its scope, going to its name and writing that.** -/
theorem exists_beforeName (hp : t.Proper) (hone : t.OneLine) (hk : t.kind? a = some (.fieldAccess scope member)) :
    ∃ pen : Pen, pen.pos = t.stopOf scope ∧ pen.out = t.textTo scope ∧ pen.Aligned ∧ (pen.beforeName member).Aligned ∧
      t.textTo a = (pen.beforeName member).out ++ member.name ∧
      t.stopOf a = (pen.beforeName member).pos.right member.name.length := by
  obtain ⟨node, hnode, hkind⟩ := Option.map_eq_some_iff.1 hk
  have hscope : scope ∈ t.children a := by
    rw [children_of_kind? hk]
    exact List.mem_cons_self
  obtain ⟨nodeS, hnodeS⟩ := contains_iff.1 (hp.contained a scope hscope)
  obtain ⟨front, back, hL⟩ := exists_events_eq hp.forest.acyclic (hp.reached a (contains_of_kind? hk))
  have hscript : node.script t = .child scope :: (Script.period member.loc ++ Script.ident member) := by
    unfold Node.script
    rw [hkind]
    rfl
  have hevents := events_eq hp.forest.acyclic hnode
  rw [hscript, eventsOf_child] at hevents
  let upToScope := front ++ [Event.stroke (.goto node.loc.start?), .enter a] ++ t.events scope
  let toName : List Event := [Event.stroke (.goto (Script.periodPos member.loc)), .stroke (.write "."),
    .stroke (.goto member.loc.start?)]
  have hsplit : front ++ t.events a = upToScope ++ (toName ++ [Event.stroke (.write member.name), .leave a]) := by
    rw [hevents]
    simp [upToScope, toName, Script.period, Script.ident, Script.writeAt]
  have hin : t.events t.root = upToScope ++ (toName ++ [Event.stroke (.write member.name), .leave a] ++ back) := by
    rw [hL, hsplit]
    simp
  obtain ⟨hpos, hout⟩ := after_events hp hnodeS hin
  obtain ⟨hpos', hout'⟩ := after_events hp hnode hL
  obtain ⟨houtName, hposName⟩ := write_apart (last_beforeName (after upToScope) member) member.name
  rw [hsplit, after_append] at hpos' hout'
  refine ⟨after upToScope, hpos, hout, hone.aligned ?_, ?_, hout'.symm.trans houtName, hpos'.symm.trans hposName⟩
  · rw [hin]
    exact List.prefix_append _ _
  · have haligned : (after (upToScope ++ toName)).Aligned := by
      refine hone.aligned ?_
      rw [hin, List.append_assoc toName, ← List.append_assoc upToScope]
      exact List.prefix_append _ _
    rw [after_append] at haligned
    exact haligned

variable (hp : t.Proper)
include hp

/-- A node that is left before another is entered stops no later than what is in the other. -/
theorem stopOf_le_of_before (hx : t.contains x = true) (hz : t.contains z = true) (hyz : t.Reaches y z)
    {front mid back : List Event} (hL : t.events t.root = front ++ t.events x ++ mid ++ t.events y ++ back) :
    t.stopOf x ≤ t.stopOf z := by
  obtain ⟨nodeX, hnodeX⟩ := contains_iff.1 hx
  obtain ⟨nodeZ, hnodeZ⟩ := contains_iff.1 hz
  obtain ⟨front', back', hL'⟩ := exists_events_eq hp.forest.acyclic hyz
  have hLx : t.events t.root = front ++ t.events x ++ (mid ++ t.events y ++ back) := by
    rw [hL]
    simp
  have hLz : t.events t.root = (front ++ t.events x ++ (mid ++ front')) ++ t.events z ++ (back' ++ back) := by
    rw [hL, hL']
    simp
  rw [← (after_events hp hnodeX hLx).1, ← (after_events hp hnodeZ hLz).1, List.append_assoc _ (mid ++ front')]
  exact after_le_after _ _

omit hp in
theorem reaches_scope (hk : t.kind? a = some (.fieldAccess scope member)) (h : t.Reaches a x) (hne : x ≠ a) :
    t.Reaches scope x := by
  rcases Relation.ReflTransGen.cases_head h with hax | ⟨c, hc, hcx⟩
  · exact absurd hax.symm hne
  · have hchild : c ∈ t.children a := hc
    rw [children_of_kind? hk] at hchild
    rwa [← List.mem_singleton.1 hchild]

/-- **No other access has a scope that stops a column before a place between the scope and the end of an access.**
Inside the scope and before the access, the other access stops before that place; around the access and after it, its
scope does not stop before the access. -/
theorem eq_of_stopOf_between (hone : t.OneLine) (ha : t.kind? a = some (.fieldAccess scope member))
    (hb : t.kind? b = some (.fieldAccess scope' member')) (hlt : t.stopOf scope < (t.stopOf scope').right 1)
    (hle : (t.stopOf scope').right 1 ≤ t.stopOf a) : b = a := by
  have hain := contains_of_kind? ha
  have hbin := contains_of_kind? hb
  have hchild : t.Holds a scope := by
    show scope ∈ t.children a
    rw [children_of_kind? ha]
    exact List.mem_cons_self
  have hchild' : t.Holds b scope' := by
    show scope' ∈ t.children b
    rw [children_of_kind? hb]
    exact List.mem_cons_self
  have hscope := hp.contained a scope hchild
  have hscope' := hp.contained b scope' hchild'
  have hstop : (t.stopOf scope').right 1 ≤ t.stopOf b := by
    obtain ⟨pen, hpos, -, -, -, -, hstop⟩ := exists_beforeName hp hone hb
    rw [hstop, ← hpos]
    exact (right_le_beforeName pen member').trans (Pos.le_right _ _)
  have hafter : ¬ t.stopOf a ≤ t.stopOf scope' := fun h =>
    absurd (hle.trans h) (Pos.lt_right _ Nat.one_pos).not_ge
  have hbefore : ¬ t.stopOf b ≤ t.stopOf scope := fun h => absurd (hstop.trans h) hlt.not_ge
  by_contra hne
  by_cases hba : t.Reaches b a
  · exact hafter (stopOf_le hp (reaches_scope hb hba (Ne.symm hne)) hain hscope')
  by_cases hab : t.Reaches a b
  · exact hbefore (stopOf_le hp (reaches_scope ha hab hne) hbin hscope)
  rcases before_or_after hp hain hbin hab hba with ⟨front, mid, back, hL⟩ | ⟨front, mid, back, hL⟩
  · exact hafter (stopOf_le_of_before hp hain hscope' (.single hchild') hL)
  · exact hbefore (stopOf_le_of_before hp hbin hscope (.single hchild) hL)

theorem isAt_print_of_render (hk : t.kind? a = some (.fieldAccess scope member)) (hink : t.render scope ≠ "") :
    Resolver.isAt t (some t.print.layout) p a = true ↔ p = (t.stopOf scope).right 1 := by
  have hscope : t.contains scope = true := hp.contained a scope <| by
    rw [children_of_kind? hk]
    exact List.mem_cons_self
  obtain ⟨s, text, hs, htext, hne⟩ := exists_text_of_render hink
  obtain ⟨q, hq⟩ := exists_layout_of_stroke hp hscope hs htext hne
  have hstop : Resolver.scopeStop? t (some t.print.layout) scope = some (t.stopOf scope) := by
    unfold Resolver.scopeStop?
    rw [Option.bind_some, hq]
    rfl
  rw [isAt_iff hk hstop, and_iff_left (hp.isAttached (contains_of_kind? hk))]

end Tree

namespace Resolution

open UniformAccess.Tree

/-- **Every name that is looked after is written at the end of its access, and a complaint about the place where it
starts is about this access exactly if nothing but the period stands between the scope and the name.** After a gap the
complaint is not about any access, and nothing changes. -/
theorem resolve_at_name {s : Tracked} (hp : s.tree.Proper) (hone : s.tree.OneLine)
    (hink : ∀ a ∈ s.resolver.pending, ∀ scope member, s.tree.kind? a = some (.fieldAccess scope member) →
      s.tree.render scope ≠ "") :
    ∀ a ∈ s.resolver.pending, ∀ scope member, s.tree.kind? a = some (.fieldAccess scope member) →
      ∃ front rest, s.tree.print.text = front ++ member.name ++ rest ∧ s.tree.textTo a = front ++ member.name ∧
        (front = s.tree.textTo scope ++ "." → ∃ s' loc found,
          resolve (some s.tree.print.layout) (Pos.ofText front) s = .ok true s' ∧ s.tree.loc? a = some loc ∧
            Rewritten s.tree s'.tree a scope member.name loc found ∧
            s'.resolver.pending = s.resolver.pending.erase a ++ found) ∧
        (front ≠ s.tree.textTo scope ++ "." →
          resolve (some s.tree.print.layout) (Pos.ofText front) s = .ok false s) := by
  intro a ha scope member hk
  obtain ⟨pen, hpos, hout, hscope, haligned, htext, hstop⟩ := exists_beforeName hp hone hk
  obtain ⟨rest, hrest⟩ := exists_text_eq s.tree a
  have hunique : ∀ b ∈ s.resolver.pending,
      Resolver.isAt s.tree (some s.tree.print.layout) (pen.beforeName member).pos b = true → b = a := by
    intro b hb hat
    obtain ⟨scope', member', hkb⟩ : ∃ scope' member', s.tree.kind? b = some (.fieldAccess scope' member') := by
      unfold Resolver.isAt at hat
      split at hat
      · exact ⟨_, _, ‹_›⟩
      · cases hat
    rw [isAt_print_of_render hp hkb (hink b hb scope' member' hkb)] at hat
    refine eq_of_stopOf_between hp hone hk hkb ?_ ?_
    · rw [← hat, ← hpos]
      exact (Pos.lt_right _ Nat.one_pos).trans_le (Pen.right_le_beforeName pen member)
    · rw [← hat, hstop]
      exact Pos.le_right _ _
  have hdirect : Resolver.isAt s.tree (some s.tree.print.layout) (pen.beforeName member).pos a = true ↔
      (pen.beforeName member).out = s.tree.textTo scope ++ "." := by
    rw [isAt_print_of_render hp hk (hink a ha scope member hk), ← hpos, ← hout]
    refine ⟨Pen.out_beforeName, fun h => ?_⟩
    rw [haligned, h, Pos.ofText_append (by decide), ← hscope]
    rfl
  refine ⟨(pen.beforeName member).out, rest, by rw [hrest, htext], htext, ?_⟩
  rw [← haligned]
  obtain ⟨b, s', hres, hend⟩ := ends_resolve hp (some s.tree.print.layout) (pen.beforeName member).pos
  rcases hend with ⟨rfl, rfl, hnone⟩ | ⟨rfl, id, node, scope', member', found, hr⟩
  · exact ⟨fun h => absurd (hdirect.2 h) (List.find?_eq_none.1 hnone a ha), fun _ => hres⟩
  · have hat := List.find?_some hr.find_eq
    obtain rfl : id = a := hunique id (List.mem_of_find?_eq_some hr.find_eq) hat
    refine ⟨fun _ => ⟨s', node.loc, found, hres, ?_, ?_, ?_⟩, fun h => absurd (hdirect.1 hat) h⟩
    · unfold Tree.loc?
      rw [hr.get_eq]
      rfl
    · have hk' : s.tree.kind? id = some (.fieldAccess scope' member') := by
        unfold Tree.kind?
        rw [hr.get_eq, Option.map_some, hr.kind_eq]
      cases hk'.symm.trans hk
      exact hr.rewritten
    · rw [hr.resolved.resolver_eq]

/-- The tree of a source file that holds `x` and `.count` after a gap, and `y.count` on the next line. -/
def gapped : Tree :=
  { root := ⟨0⟩
    cells := #[
      some ⟨none, .synthetic, .unit { types := [⟨1⟩, ⟨3⟩] }⟩,
      some ⟨some ⟨0⟩, .span ⟨⟨1, 1⟩, ⟨1, 15⟩⟩, .fieldAccess ⟨2⟩ (.placed ⟨1, 10⟩ "count")⟩,
      some ⟨some ⟨1⟩, .span ⟨⟨1, 1⟩, ⟨1, 2⟩⟩, .nameExpr "x"⟩,
      some ⟨some ⟨0⟩, .span ⟨⟨2, 1⟩, ⟨2, 8⟩⟩, .fieldAccess ⟨4⟩ (.placed ⟨2, 3⟩ "count")⟩,
      some ⟨some ⟨3⟩, .span ⟨⟨2, 1⟩, ⟨2, 2⟩⟩, .nameExpr "y"⟩] }

theorem resolve_at_name_gapped :
    resolve (some gapped.print.layout) ⟨1, 10⟩ ⟨gapped, { properties := ["count"], pending := [⟨1⟩, ⟨3⟩] }⟩ =
      .ok false ⟨gapped, { properties := ["count"], pending := [⟨1⟩, ⟨3⟩] }⟩ ∧
    ∃ s' loc found,
      resolve (some gapped.print.layout) ⟨2, 3⟩ ⟨gapped, { properties := ["count"], pending := [⟨1⟩, ⟨3⟩] }⟩ =
        .ok true s' ∧ Rewritten gapped s'.tree ⟨3⟩ ⟨4⟩ "count" loc found := by
  have hink : ∀ a ∈ [(⟨1⟩ : NodeId), ⟨3⟩], ∀ scope member, gapped.kind? a = some (.fieldAccess scope member) →
      gapped.render scope ≠ "" := by
    intro a ha scope member hk
    rcases List.mem_pair.1 ha with rfl | rfl <;> cases hk <;> decide +kernel
  have hname := resolve_at_name (s := ⟨gapped, { properties := ["count"], pending := [⟨1⟩, ⟨3⟩] }⟩) (by decide)
    (by decide) hink
  have hfront : ∀ {front front' : String}, front ++ "count" = front' ++ "count" → front = front' :=
    (String.append_left_inj _).1
  constructor
  · obtain ⟨front, rest, -, htext, -, hgap⟩ := hname ⟨1⟩ (by decide) ⟨2⟩ (.placed ⟨1, 10⟩ "count") rfl
    obtain rfl := hfront (htext.symm.trans (by decide +kernel : gapped.textTo ⟨1⟩ = "x       ." ++ "count"))
    exact hgap (by decide +kernel)
  · obtain ⟨front, rest, -, htext, hdirect, -⟩ := hname ⟨3⟩ (by decide) ⟨4⟩ (.placed ⟨2, 3⟩ "count") rfl
    obtain rfl := hfront (htext.symm.trans (by decide +kernel : gapped.textTo ⟨3⟩ = "x       .count\ny." ++ "count"))
    obtain ⟨s', loc, found, hres, -, hrewritten, -⟩ := hdirect (by decide +kernel)
    exact ⟨s', loc, found, hres, hrewritten⟩

/-- **A member after a gap is not found**, although it is looked after and the complaint is about the place of its
name. -/
theorem resolve_misses_gapped : gapped.Proper ∧ gapped.Legible ∧ gapped.print.text = "x       .count\ny.count\n" ∧
    Pos.ofText "x       ." = ⟨1, 10⟩ ∧ ∃ s',
      resolve (some gapped.print.layout) ⟨1, 10⟩ ⟨gapped, { properties := ["count"], pending := [⟨1⟩, ⟨3⟩] }⟩ =
        .ok false s' :=
  ⟨by decide, by decide +kernel, by decide +kernel, by decide, _, rfl⟩

end Resolution

end UniformAccess
