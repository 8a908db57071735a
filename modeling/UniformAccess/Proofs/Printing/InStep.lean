import UniformAccess.Proofs.Printing.Alike
import UniformAccess.Proofs.Printing.Text
/-!
# Two pens in step

A tree is written twice, the second time with room made in it. The two pens are in step (`InStep`) as long as the second
one is where the room has moved the first one, and both know the same of the nodes in `K`. A stroke that makes no room
keeps them in step (`InStep.stroke`).

All of this is said twice at once: of lines and columns if `exact` holds, and of lines only if it does not, because text
that was put in may have pushed the rest of its line to the right.
-/
namespace UniformAccess

/-! ## Positions -/

/-- **The second position is where the room has moved the first.** -/
def Room.Meets (exact : Prop) (r : Room) (q q' : Pos) : Prop := q'.line = q.line + r.before q ∧ (exact → q'.col = q.col)

namespace Room.Meets

variable {exact : Prop} {r : Room} {q q' s : Pos}

theorem move (q : Pos) : r.Meets exact q (r.move q) := ⟨rfl, fun _ => rfl⟩

theorem eq_move (h : r.Meets exact q q') (he : exact) : q' = r.move q := Pos.ext h.1 (h.2 he)

/-- The columns may differ only if they do not count. -/
theorem right {m n : Nat} (h : r.Meets exact q q') (hb : r.before (q.right m) = r.before q) (hmn : exact → n = m) :
    r.Meets exact (q.right m) (q'.right n) := by
  refine ⟨?_, fun he => ?_⟩
  · rw [Pos.line_right, Pos.line_right, hb, h.1]
  · rw [Pos.col_right, Pos.col_right, h.2 he, hmn he]

end Room.Meets

namespace Pen

variable {exact : Prop} {r : Room} {K : NodeId → Prop} {p p' : Pen} {q q' : Pos} {x : NodeId} {s : Stroke}
  {text : String} {es : List Event}

/-! ## What the pens know of the nodes -/

/-- **Two pens know the same of the nodes in `K`**, up to the room. -/
structure Agree (exact : Prop) (r : Room) (K : NodeId → Prop) (p p' : Pen) : Prop where
  pending : ∀ x, K x → (x ∈ p'.pending ↔ x ∈ p.pending)
  starts : ∀ x, K x → Option.Rel (r.Meets exact) (p.starts.get? x) (p'.starts.get? x)
  layout : ∀ x, K x → Option.Rel (fun s s' => r.Meets exact s.start s'.start ∧ r.Meets exact s.stop s'.stop)
    (p.layout.get? x) (p'.layout.get? x)

namespace Agree

variable {p₁ p₁' : Pen}

/-- Nothing was written. -/
theorem blank (h : Agree exact r K p p') (hp : p₁.pending = p.pending ∧ p₁.starts = p.starts ∧ p₁.layout = p.layout)
    (hp' : p₁'.pending = p'.pending ∧ p₁'.starts = p'.starts ∧ p₁'.layout = p'.layout) : Agree exact r K p₁ p₁' := by
  refine ⟨fun x hx => ?_, fun x hx => ?_, fun x hx => ?_⟩
  · rw [hp.1, hp'.1]
    exact h.pending x hx
  · rw [hp.2.1, hp'.2.1]
    exact h.starts x hx
  · rw [hp.2.2, hp'.2.2]
    exact h.layout x hx

/-- Text was written, and the nodes that waited have begun. -/
theorem ink (h : Agree exact r K p p') (hq : r.Meets exact q q')
    (hp : p₁.pending = [] ∧ p₁.starts = p.starts.insertAll p.pending q ∧ p₁.layout = p.layout)
    (hp' : p₁'.pending = [] ∧ p₁'.starts = p'.starts.insertAll p'.pending q' ∧ p₁'.layout = p'.layout) :
    Agree exact r K p₁ p₁' := by
  refine ⟨fun x _ => ?_, fun x hx => ?_, fun x hx => ?_⟩
  · rw [hp.1, hp'.1]
  · rw [hp.2.1, hp'.2.1, NodeMap.get?_insertAll, NodeMap.get?_insertAll]
    by_cases hpend : x ∈ p.pending
    · rw [if_pos hpend, if_pos ((h.pending x hx).2 hpend)]
      exact .some hq
    · rw [if_neg hpend, if_neg fun hpend' => hpend ((h.pending x hx).1 hpend')]
      exact h.starts x hx
  · rw [hp.2.2, hp'.2.2]
    exact h.layout x hx

theorem enter (h : Agree exact r K p p') (x : NodeId) : Agree exact r K (p.enter x) (p'.enter x) where
  pending y hy := by
    show y ∈ x :: p'.pending ↔ y ∈ x :: p.pending
    rw [List.mem_cons, List.mem_cons, h.pending y hy]
  starts := h.starts
  layout := h.layout

theorem leave (h : Agree exact r K p p') (hpos : r.Meets exact p.pos p'.pos) (x : NodeId) :
    Agree exact r K (p.leave x) (p'.leave x) where
  pending y hy := by
    show y ∈ p'.pending.filter (· ≠ x) ↔ y ∈ p.pending.filter (· ≠ x)
    rw [List.mem_filter, List.mem_filter, h.pending y hy]
  starts := h.starts
  layout y hy := by
    by_cases hyx : y = x
    · subst hyx
      cases hs : p.starts.get? y with
      | none =>
        have hs' : p'.starts.get? y = none := by
          have hrel := h.starts y hy
          rw [hs] at hrel
          cases hp' : p'.starts.get? y with
          | none => rfl
          | some q => rw [hp'] at hrel; cases hrel
        rw [layout_leave_of_none hs, layout_leave_of_none hs']
        exact h.layout y hy
      | some q =>
        obtain ⟨q', hs', hq⟩ : ∃ q', p'.starts.get? y = some q' ∧ r.Meets exact q q' := by
          have hrel := h.starts y hy
          rw [hs] at hrel
          cases hp' : p'.starts.get? y with
          | none => rw [hp'] at hrel; cases hrel
          | some q' =>
            rw [hp'] at hrel
            cases hrel with
            | some hq => exact ⟨q', rfl, hq⟩
        rw [layout_leave hs, layout_leave hs']
        exact .some ⟨hq, hpos⟩
    · have hne : Event.leave x ≠ .leave y := fun h => hyx (Event.leave.inj h).symm
      have hl : (p.leave x).layout.get? y = _ := layout_step_of_ne (p := p) hne
      have hl' : (p'.leave x).layout.get? y = _ := layout_step_of_ne (p := p') hne
      rw [hl, hl']
      exact h.layout y hy

/-- What concerns no node in `K` can happen to the first pen alone. -/
theorem run_left (h : Agree exact r K p p') (hpend : ∀ x, K x → x ∉ p.pending)
    (hes : ∀ x, K x → .enter x ∉ es ∧ .leave x ∉ es) : Agree exact r K (p.run es) p' := by
  refine ⟨fun x hx => ?_, fun x hx => ?_, fun x hx => ?_⟩
  · obtain ⟨hrun, -⟩ := run_of_not_pending (hpend x hx) (hes x hx).1
    rw [h.pending x hx]
    exact ⟨fun hx' => absurd hx' (hpend x hx), fun hx' => absurd hx' hrun⟩
  · rw [(run_of_not_pending (hpend x hx) (hes x hx).1).2]
    exact h.starts x hx
  · rw [layout_run (hes x hx).2]
    exact h.layout x hx

/-- What concerns no node in `K` can happen to the second pen alone. -/
theorem run_right (h : Agree exact r K p p') (hpend : ∀ x, K x → x ∉ p.pending)
    (hes : ∀ x, K x → .enter x ∉ es ∧ .leave x ∉ es) : Agree exact r K p (p'.run es) := by
  have hpend' : ∀ x, K x → x ∉ p'.pending := fun x hx hx' => hpend x hx ((h.pending x hx).1 hx')
  refine ⟨fun x hx => ?_, fun x hx => ?_, fun x hx => ?_⟩
  · obtain ⟨hrun, -⟩ := run_of_not_pending (hpend' x hx) (hes x hx).1
    exact ⟨fun hx' => absurd hx' hrun, fun hx' => absurd hx' (hpend x hx)⟩
  · rw [(run_of_not_pending (hpend' x hx) (hes x hx).1).2]
    exact h.starts x hx
  · rw [layout_run (hes x hx).2]
    exact h.layout x hx

end Agree

/-! ## Pens in step -/

/-- The last characters are the same, or neither makes a difference: where a node waits for its text, the pen does not
move before the text comes. -/
def LastAgree (K : NodeId → Prop) (p p' : Pen) : Prop :=
  p'.last = p.last ∨ Blank p'.last ∧ (Blank p.last ∨ ∃ x ∈ p.pending, K x)

/-- **The second pen is where the room has moved the first.** -/
structure InStep (exact : Prop) (r : Room) (K : NodeId → Prop) (p p' : Pen) : Prop where
  agree : Agree exact r K p p'
  pos : r.Meets exact p.pos p'.pos
  last : exact → LastAgree K p p'

/-- **A stroke of the first pen that makes no room**, and that the nodes which wait allow. -/
structure Steady (r : Room) (K : NodeId → Prop) (p : Pen) (s : Stroke) : Prop where
  before_eq : r.before (p.stroke s).pos = r.before p.pos
  waits : ∀ x ∈ p.pending, K x → x ∈ (p.stroke s).pending → (p.stroke s).pos = p.pos
  begins : ∀ x ∈ p.pending, K x → x ∉ (p.stroke s).pending → (p.stroke s).starts.get? x = some p.pos
  ahead : ∀ g prev q, s = .glue g prev (some q) → (p.stroke s).pos ≤ q ∧ r.before q = r.before p.pos
  col : ∀ q, s = .goto (some q) → 1 ≤ q.col
  ink : ∀ g prev next, s = .glue g prev next → g.token ≠ ""

theorem length_token_le (g : Glue) : g.token.length ≤ g.padded.length := by
  unfold Glue.padded Glue.leading
  split <;> split <;> simp [String.length_append]
  omega

namespace InStep

theorem leave (h : InStep exact r K p p') (hx : x ∉ p.pending) : InStep exact r K (p.leave x) (p'.leave x) where
  agree := h.agree.leave h.pos x
  pos := h.pos
  last he := by
    rcases h.last he with hl | ⟨hb, hb' | ⟨y, hy, hKy⟩⟩
    · exact .inl hl
    · exact .inr ⟨hb, .inl hb'⟩
    · have hyx : y ≠ x := fun hyx => hx (hyx ▸ hy)
      exact .inr ⟨hb, .inr ⟨y, List.mem_filter.2 ⟨hy, by simpa using hyx⟩, hKy⟩⟩

/-! ## Strokes of one kind -/

theorem space (h : InStep exact r K p p') (hb : r.before (p.pos.right 1) = r.before p.pos) :
    InStep exact r K p.space p'.space where
  agree := h.agree.blank ⟨rfl, rfl, rfl⟩ ⟨rfl, rfl, rfl⟩
  pos := h.pos.right hb fun _ => rfl
  last _ := .inl rfl

theorem spaces (h : InStep exact r K p p') {n : Nat} (hb : r.before (p.pos.right n) = r.before p.pos) :
    InStep exact r K (p.spaces n) (p'.spaces n) where
  agree := h.agree.blank ⟨pending_spaces p n, starts_spaces p n, layout_spaces p n⟩
    ⟨pending_spaces p' n, starts_spaces p' n, layout_spaces p' n⟩
  pos := by
    rw [pos_spaces, pos_spaces]
    exact h.pos.right hb fun _ => rfl
  last he := by
    cases n with
    | zero => exact h.last he
    | succ n => exact .inl (by rw [last_spaces p n.succ_pos, last_spaces p' n.succ_pos])

/-- Both pens leave a space before the text, or neither does. -/
theorem lead_eq (h : InStep exact r K p p') (htext : text ≠ "")
    (hbegins : ∀ x ∈ p.pending, K x → (p.write text).starts.get? x = some p.pos) (he : exact) :
    p'.lead text = p.lead text := by
  rcases h.last he with hl | ⟨hb, hb' | ⟨x, hx, hKx⟩⟩
  · unfold lead joins
    rw [hl]
  · rw [lead_of_blank hb, lead_of_blank hb']
  · have hstart := hbegins x hx hKx
    rw [starts_write p htext, NodeMap.get?_insertAll, if_pos hx] at hstart
    have hcol := congrArg Pos.col (Option.some.inj hstart)
    rw [Pos.col_right] at hcol
    rw [lead_of_blank hb]
    omega

theorem write (h : InStep exact r K p p') (hb : r.before (p.write text).pos = r.before p.pos)
    (hbegins : text ≠ "" → ∀ x ∈ p.pending, K x → (p.write text).starts.get? x = some p.pos) :
    InStep exact r K (p.write text) (p'.write text) := by
  by_cases htext : text = ""
  · rw [htext, write_empty, write_empty]
    exact h
  · have hlead := h.lead_eq htext (hbegins htext)
    rw [pos_write p htext] at hb
    have hstart : r.before (p.pos.right (p.lead text)) = r.before p.pos := by
      refine Room.before_eq_of_le (Pos.le_right _ _) ?_ hb
      rw [← Pos.right_right]
      exact Pos.le_right _ _
    refine ⟨h.agree.ink (h.pos.right hstart hlead) ⟨pending_write p htext, starts_write p htext, layout_write p text⟩
      ⟨pending_write p' htext, starts_write p' htext, layout_write p' text⟩, ?_, fun _ => .inl ?_⟩
    · rw [pos_write p htext, pos_write p' htext]
      exact h.pos.right hb fun he => by rw [hlead he]
    · rw [last_write p htext, last_write p' htext]

theorem sep (h : InStep exact r K p p') (next : Option Pos) (hs : Steady r K p (.sep next)) :
    InStep exact r K (p.sep next) (p'.sep (next.map r.move)) := by
  have hb : r.before (p.sep next).pos = r.before p.pos := hs.before_eq
  have hbooks : ∀ (p : Pen) (next : Option Pos), (p.sep next).pending = p.pending ∧ (p.sep next).starts = p.starts ∧
      (p.sep next).layout = p.layout :=
      fun p next => by rcases sep_eq p next with h | h <;> rw [h] <;> exact ⟨rfl, rfl, rfl⟩
  have hline : ∀ (p : Pen) (next : Option Pos), (p.sep next).pos.line = p.pos.line := fun p next => by
    rcases sep_eq p next with h | h <;> rw [h]
    rfl
  by_cases he : exact
  · -- where both pens decide on the same grounds they do the same
    have hsame : ∀ q, p'.pos ≤ r.move q ↔ p.pos ≤ q := fun q => by rw [h.pos.eq_move he, Room.move_le_move_iff]
    have hany : (∀ q ∈ next.map r.move, ¬ p'.pos ≤ q) ↔ ∀ q ∈ next, ¬ p.pos ≤ q := by
      cases next with
      | none => simp
      | some q => simp only [Option.map_some, Option.mem_some_iff, forall_eq', hsame]
    by_cases hlast : Blank p.last
    · have hlast' : Blank p'.last := by
        rcases h.last he with hl | ⟨hb, -⟩
        · rwa [hl]
        · exact hb
      rw [sep_of_blank hlast, sep_of_blank hlast']
      exact h
    · by_cases hn : ∀ q ∈ next, ¬ p.pos ≤ q
      · have hspace := sep_of_not_le hlast hn
        rcases h.last he with hl | ⟨-, hb' | ⟨x, hx, hKx⟩⟩
        · rw [hspace] at hb ⊢
          rw [sep_of_not_le (by rwa [hl]) (hany.2 hn)]
          exact h.space hb
        · exact absurd hb' hlast
        · have hpos := hs.waits x hx hKx (by rw [stroke, (hbooks p next).1]; exact hx)
          rw [stroke, hspace, pos_space] at hpos
          exact absurd hpos.symm (Pos.lt_right _ Nat.one_pos).ne
      · have hstay : p.sep next = p := by
          push Not at hn
          obtain ⟨q, rfl, hq⟩ := hn
          exact sep_of_le hq
        have hstay' : p'.sep (next.map r.move) = p' := by
          rw [← hany] at hn
          push Not at hn
          obtain ⟨q, hq, hle⟩ := hn
          rw [Option.mem_def.1 hq]
          exact sep_of_le hle
        rw [hstay, hstay']
        exact h
  · refine ⟨h.agree.blank (hbooks p next) (hbooks p' _), ⟨?_, fun he' => absurd he' he⟩, fun he' => absurd he' he⟩
    rw [hline, hline, hb, h.pos.1]

theorem goto (h : InStep exact r K p p') (hcol : 1 ≤ q.col) : InStep exact r K (p.goto q) (p'.goto (r.move q)) := by
  obtain ⟨-, hbooks⟩ := goto_spec p q
  obtain ⟨-, hbooks'⟩ := goto_spec p' (r.move q)
  refine ⟨h.agree.blank hbooks hbooks', ⟨?_, fun he => ?_⟩, fun he => ?_⟩
  · rw [line_goto, pos_goto p hcol, h.pos.1, Room.line_move]
    rcases le_total p.pos q with hle | hle
    · have := Pos.line_le_line (Room.move_le_move_iff (r := r) |>.2 hle)
      rw [Room.line_move, Room.line_move] at this
      rw [max_eq_right hle, max_eq_right this]
    · have := Pos.line_le_line (Room.move_le_move_iff (r := r) |>.2 hle)
      rw [Room.line_move, Room.line_move] at this
      rw [max_eq_left hle, max_eq_left this]
  · rw [pos_goto p hcol, pos_goto p' (by rwa [Room.col_move]), h.pos.eq_move he]
    rcases le_total p.pos q with hle | hle
    · rw [max_eq_right hle, max_eq_right (Room.move_le_move_iff.2 hle), Room.col_move]
    · rw [max_eq_left hle, max_eq_left (Room.move_le_move_iff.2 hle), Room.col_move]
  · rcases lt_or_ge p.pos q with hlt | hle
    · have hlt' : p'.pos < r.move q := by rwa [h.pos.eq_move he, Room.move_lt_move_iff]
      exact .inr ⟨(goto_of_lt hlt' (by rwa [Room.col_move])).2, .inl (goto_of_lt hlt hcol).2⟩
    · have hle' : r.move q ≤ p'.pos := by rwa [h.pos.eq_move he, Room.move_le_move_iff]
      rw [goto_of_le hle, goto_of_le hle']
      exact h.last he

/-! ## Tokens between nodes -/

/-- Where the token fills the columns between two nodes, the pen comes as far as they do. -/
theorem le_pos_glue_of_fits {g : Glue} {prev : Option Pos} (hg : g.token ≠ "")
    (hfits : q.line = (prev.getD p.pos).line ∧ (prev.getD p.pos).col + g.token.length ≤ q.col) :
    p.pos.right (q.col - (prev.getD p.pos).col) ≤ (p.glue g prev (some q)).pos := by
  unfold Pen.glue
  dsimp only
  rw [if_pos hfits]
  split
  · rename_i hgap
    rw [pos_spaces, pos_write _ hg, pos_space, Pos.right_right, Pos.right_right, Pos.le_def, Pos.line_right,
      Pos.col_right, Pos.line_right, Pos.col_right]
    omega
  · rw [pos_spaces, pos_write _ hg, Pos.right_right, Pos.le_def, Pos.line_right, Pos.col_right, Pos.line_right,
      Pos.col_right]
    omega

/-- **A token that fills the columns before the next node does so after the room is made**, because no room is made
between the pen and that node. -/
theorem before_eq_of_fits {g : Glue} {prev : Option Pos} (hg : g.token ≠ "")
    (hfits : q.line = (prev.getD p.pos).line ∧ (prev.getD p.pos).col + g.token.length ≤ q.col)
    (hend : (p.glue g prev (some q)).pos ≤ q) (hq : r.before q = r.before p.pos) :
    r.before q = r.before (prev.getD p.pos) := by
  have hle := (le_pos_glue_of_fits hg hfits).trans hend
  rw [Pos.le_def, Pos.line_right, Pos.col_right] at hle
  have hprev : p.pos ≤ prev.getD p.pos := by
    rw [Pos.le_def]
    omega
  have hnext : prev.getD p.pos ≤ q := by
    rw [Pos.le_def]
    omega
  rw [Room.before_eq_of_le hprev hnext hq, hq]

/-- A token that fills the columns between two nodes is written alike by both pens. -/
theorem fill {g : Glue} {gap : Nat} (h : InStep exact r K p p') (hg : g.token ≠ "")
    (hb : r.before (if 0 < gap ∧ (g.before || !g.after) then (p.space.write g.token).spaces (gap - 1)
      else (p.write g.token).spaces gap).pos = r.before p.pos)
    (hbegins : ∀ x ∈ p.pending, K x → (if 0 < gap ∧ (g.before || !g.after) then (p.space.write g.token).spaces (gap - 1)
      else (p.write g.token).spaces gap).starts.get? x = some p.pos) :
    InStep exact r K
      (if 0 < gap ∧ (g.before || !g.after) then (p.space.write g.token).spaces (gap - 1)
        else (p.write g.token).spaces gap)
      (if 0 < gap ∧ (g.before || !g.after) then (p'.space.write g.token).spaces (gap - 1)
        else (p'.write g.token).spaces gap) := by
  by_cases hgap : 0 < gap ∧ (g.before || !g.after)
  · rw [if_pos hgap] at hb hbegins
    rw [if_pos hgap, if_pos hgap]
    rw [pos_spaces] at hb
    have hwrite : r.before (p.space.write g.token).pos = r.before p.pos :=
      Room.before_eq_of_le ((Wrote.space p).trans (.write _ _)).pos_le (Pos.le_right _ _) hb
    have hspace : r.before p.space.pos = r.before p.pos :=
      Room.before_eq_of_le (Wrote.space p).pos_le (Wrote.write _ _).pos_le hwrite
    refine ((h.space hspace).write (hwrite.trans hspace.symm) fun _ x hx hKx => ?_).spaces (hb.trans hwrite.symm)
    -- a node that waits does not let a space go before the token
    have hstart := hbegins x hx hKx
    rw [starts_spaces, starts_write _ hg, NodeMap.get?_insertAll, if_pos hx, pos_space, Pos.right_right] at hstart
    have hcol := congrArg Pos.col (Option.some.inj hstart)
    rw [Pos.col_right] at hcol
    omega
  · rw [if_neg hgap] at hb hbegins
    rw [if_neg hgap, if_neg hgap]
    rw [pos_spaces] at hb
    have hwrite : r.before (p.write g.token).pos = r.before p.pos :=
      Room.before_eq_of_le (Wrote.write _ _).pos_le (Pos.le_right _ _) hb
    refine (h.write hwrite fun _ x hx hKx => ?_).spaces (hb.trans hwrite.symm)
    rw [← hbegins x hx hKx, starts_spaces]

/-- **A token that stands between two nodes is written on the same grounds by both pens**, if no room is made before the
second node and the pen does not go past its start. -/
theorem glue_exact {g : Glue} {prev next : Option Pos} (h : InStep exact r K p p') (he : exact) (hg : g.token ≠ "")
    (hb : r.before (p.glue g prev next).pos = r.before p.pos)
    (hbegins : ∀ x ∈ p.pending, K x → (p.glue g prev next).starts.get? x = some p.pos)
    (hahead : ∀ q ∈ next, (p.glue g prev next).pos ≤ q ∧ r.before q = r.before p.pos) :
    InStep exact r K (p.glue g prev next) (p'.glue g (prev.map r.move) (next.map r.move)) := by
  have hpos := h.pos.eq_move he
  obtain ⟨hleading, hpadded⟩ := padded_ne hg
  cases next with
  | none => exact h.write hb fun _ => hbegins
  | some q =>
    obtain ⟨hend, hq⟩ := hahead q rfl
    have hfits := fun hA => before_eq_of_fits (r := r) hg hA hend hq
    have hprev' : (prev.map r.move).getD p'.pos = r.move (prev.getD p.pos) := by
      cases prev with
      | none => exact hpos
      | some prev => rfl
    have hline : (r.move q).line = (r.move (prev.getD p.pos)).line → q.line = (prev.getD p.pos).line :=
      Room.line_eq_of_move
    unfold Pen.glue at hb hbegins hend ⊢
    dsimp only at hb hbegins hend ⊢
    rw [Option.map_some, hprev']
    dsimp only
    generalize prev.getD p.pos = prev at hb hbegins hend hfits hline ⊢
    by_cases hA : q.line = prev.line ∧ prev.col + g.token.length ≤ q.col
    · have hA' : (r.move q).line = (r.move prev).line ∧ (r.move prev).col + g.token.length ≤ (r.move q).col := by
        rw [Room.line_move, Room.line_move, hfits hA, hA.1]
        exact ⟨rfl, hA.2⟩
      rw [if_pos hA] at hb hbegins ⊢
      rw [if_pos hA', Room.col_move, Room.col_move]
      exact h.fill hg hb hbegins
    · have hA' : ¬ ((r.move q).line = (r.move prev).line ∧ (r.move prev).col + g.token.length ≤ (r.move q).col) :=
        fun hA' => hA ⟨hline hA'.1, hA'.2⟩
      rw [if_neg hA] at hb hbegins hend ⊢
      rw [if_neg hA']
      by_cases hB : prev.line < q.line ∧ p.pos < q
      · have hle : prev ≤ q := by
          rw [Pos.le_def]
          exact .inl hB.1
        have hB' : (r.move prev).line < (r.move q).line ∧ p'.pos < r.move q := by
          have := r.before_mono hle
          rw [hpos, Room.move_lt_move_iff, Room.line_move, Room.line_move]
          exact ⟨by omega, hB.2⟩
        rw [if_pos hB] at hb hbegins ⊢
        rw [if_pos hB']
        exact h.write hb fun _ => hbegins
      · rw [if_neg hB] at hb hbegins hend ⊢
        have hB' : ¬ ((r.move prev).line < (r.move q).line ∧ p'.pos < r.move q) := by
          rw [hpos, Room.move_lt_move_iff, Room.line_move, Room.line_move]
          rintro ⟨hlow, hlt⟩
          have hnot : ¬ prev.line < q.line := fun hlow => hB ⟨hlow, hlt⟩
          -- room is made between the two nodes, before the pen, and then the token is too long for the columns left
          have hpen : prev < p.pos := by
            by_contra hle
            have := r.before_mono (not_lt.1 hle)
            omega
          rw [pos_write p hpadded, Pos.le_def, Pos.line_right, Pos.col_right] at hend
          rw [Pos.lt_def] at hpen hlt
          have := length_token_le g
          omega
        rw [if_neg hB']
        exact h.write hb fun _ => hbegins

/-- Lines do not tell a token from another. -/
theorem glue_lines {g : Glue} {prev next prev' next' : Option Pos} (h : InStep exact r K p p') (he : ¬ exact)
    (hg : g.token ≠ "") (hb : r.before (p.glue g prev next).pos = r.before p.pos) :
    InStep exact r K (p.glue g prev next) (p'.glue g prev' next') := by
  have hline : ∀ (p : Pen) (prev next : Option Pos), (p.glue g prev next).pos.line = p.pos.line := fun p prev next =>
    line_stroke p (.glue g prev next) nofun
  have hink : ∀ (p : Pen) (prev next : Option Pos), ∃ q, p.pos ≤ q ∧ q ≤ (p.glue g prev next).pos ∧
      (p.glue g prev next).pending = [] ∧ (p.glue g prev next).starts = p.starts.insertAll p.pending q ∧
      (p.glue g prev next).layout = p.layout := fun p prev next => by
    have hwrote := Wrote.glue p g prev next
    have hpend : (p.glue g prev next).pending = [] := (inked_stroke p (s := .glue g prev next) rfl hg).pending_eq
    rcases hwrote.books with ⟨hp, hs⟩ | ⟨q, hle, hlt, hp, hs⟩
    · refine ⟨p.pos, le_refl _, hwrote.pos_le, hpend, ?_, hwrote.layout_eq⟩
      rw [hpend] at hp
      rw [hs, ← hp]
      rfl
    · exact ⟨q, hle, hlt.le, hp, hs, hwrote.layout_eq⟩
  obtain ⟨q, hle, hle', hbooks⟩ := hink p prev next
  obtain ⟨q', hleq, hleq', hbooks'⟩ := hink p' prev' next'
  have hqline : ∀ {p : Pen} {q : Pos} {prev next : Option Pos}, p.pos ≤ q → q ≤ (p.glue g prev next).pos →
      q.line = p.pos.line := fun {p q prev next} hle hle' => by
    have := Pos.line_le_line hle
    have := Pos.line_le_line hle'
    have := hline p prev next
    omega
  refine ⟨h.agree.ink ⟨?_, fun he' => absurd he' he⟩ hbooks hbooks', ⟨?_, fun he' => absurd he' he⟩,
    fun he' => absurd he' he⟩
  · rw [hqline hleq hleq', hqline hle hle', Room.before_eq_of_le hle hle' hb, h.pos.1]
  · rw [hline, hline, hb, h.pos.1]

/-! ## Any stroke -/

/-- **Pens in step stay in step** over a stroke that makes no room. -/
theorem stroke (h : InStep exact r K p p') (hs : Steady r K p s) :
    InStep exact r K (p.stroke s) (p'.stroke (s.moved r.move)) := by
  match s with
  | .goto none => exact h
  | .goto (some q) => exact h.goto (hs.col q rfl)
  | .sep next => exact h.sep next hs
  | .write text =>
    refine h.write hs.before_eq fun htext x hx hKx => hs.begins x hx hKx ?_
    show x ∉ (p.write text).pending
    rw [pending_write p htext]
    exact List.not_mem_nil
  | .glue g prev next =>
    have hg := hs.ink g prev next rfl
    by_cases he : exact
    · refine h.glue_exact he hg hs.before_eq (fun x hx hKx => hs.begins x hx hKx ?_) fun q hq => ?_
      · rw [(inked_stroke p (s := .glue g prev next) rfl hg).pending_eq]
        exact List.not_mem_nil
      · rw [Option.mem_def.1 hq] at hs ⊢
        exact hs.ahead g prev q rfl
    · exact h.glue_lines he hg hs.before_eq

end InStep

/-! ## One pen behind the other -/

/-- **The second pen is not ahead of where the first is to go next.** -/
structure Ready (exact : Prop) (r : Room) (K : NodeId → Prop) (q : Pos) (p p' : Pen) : Prop where
  agree : Agree exact r K p p'
  line_le : p'.pos.line ≤ (r.move q).line
  near : exact → p'.pos = r.move p.pos ∧ LastAgree K p p' ∨ p'.pos < r.move q

theorem InStep.ready (h : InStep exact r K p p') (hle : p.pos ≤ q) : Ready exact r K q p p' where
  agree := h.agree
  line_le := by
    rw [h.pos.1, ← Room.line_move]
    exact Pos.line_le_line (Room.move_le_move_iff.2 hle)
  near he := .inl ⟨h.pos.eq_move he, h.last he⟩

namespace Ready

theorem mono (h : Ready exact r K q p p') (hle : q ≤ q') : Ready exact r K q' p p' where
  agree := h.agree
  line_le := h.line_le.trans (Pos.line_le_line (Room.move_le_move_iff.2 hle))
  near he := (h.near he).imp_right fun hlt => hlt.trans_le (Room.move_le_move_iff.2 hle)

/-- **Both pens go to the next node, and are in step again.** -/
theorem enter (h : Ready exact r K q p p') (hle : p.pos ≤ q) (hcol : 1 ≤ q.col) (hx : K x) :
    InStep exact r K ((p.goto q).enter x) ((p'.goto (r.move q)).enter x) := by
  obtain ⟨-, hbooks⟩ := goto_spec p q
  obtain ⟨-, hbooks'⟩ := goto_spec p' (r.move q)
  have hpos : (p.goto q).pos = q := by rw [pos_goto p hcol, max_eq_right hle]
  have hcol' : 1 ≤ (r.move q).col := hcol
  have hle' : exact → p'.pos ≤ r.move q := fun he => by
    rcases h.near he with ⟨hp', -⟩ | hlt
    · rw [hp']
      exact Room.move_le_move_iff.2 hle
    · exact hlt.le
  refine ⟨(h.agree.blank hbooks hbooks').enter x, ⟨?_, fun he => ?_⟩, fun he => ?_⟩
  · show (p'.goto (r.move q)).pos.line = (p.goto q).pos.line + r.before (p.goto q).pos
    rw [hpos, line_goto, max_eq_right h.line_le, Room.line_move]
  · show (p'.goto (r.move q)).pos.col = (p.goto q).pos.col
    rw [hpos, pos_goto p' hcol', max_eq_right (hle' he), Room.col_move]
  · rcases (hle' he).lt_or_eq with hlt | heq
    · exact .inr ⟨(goto_of_lt hlt hcol').2, .inr ⟨x, List.mem_cons_self, hx⟩⟩
    · -- the second pen is there already, and so is the first
      rcases h.near he with ⟨hp', hlast⟩ | hlt
      · have hpq : q = p.pos := by
          rw [hp'] at heq
          exact le_antisymm (Room.move_le_move_iff.1 heq.symm.le) hle
        rw [goto_of_le heq.symm.le, goto_of_le hpq.le]
        rcases hlast with hl | ⟨hb, -⟩
        · exact .inl hl
        · exact .inr ⟨hb, .inr ⟨x, List.mem_cons_self, hx⟩⟩
      · exact absurd heq hlt.ne

/-- Neither pen leaves a space before a node that lies ahead. -/
theorem sep (h : Ready exact r K q p p') (hle : p.pos ≤ q) :
    Ready exact r K q (p.sep (some q)) (p'.sep (some (r.move q))) := by
  rw [sep_of_le hle]
  by_cases he : exact
  · rw [sep_of_le]
    · exact h
    · rcases h.near he with ⟨hp', -⟩ | hlt
      · rw [hp']
        exact Room.move_le_move_iff.2 hle
      · exact hlt.le
  · have hsame : ∀ next, (p'.sep next).pending = p'.pending ∧ (p'.sep next).starts = p'.starts ∧
        (p'.sep next).layout = p'.layout := fun next => by
      rcases sep_eq p' next with h | h <;> rw [h] <;> exact ⟨rfl, rfl, rfl⟩
    refine ⟨h.agree.blank ⟨rfl, rfl, rfl⟩ (hsame _), ?_, fun he' => absurd he' he⟩
    have hline := line_stroke p' (.sep (some (r.move q))) nofun
    rw [Pen.stroke] at hline
    rw [hline]
    exact h.line_le

/-- What concerns no node in `K` takes the first pen further ahead. -/
theorem run_left (h : Ready exact r K q p p') (hle : p.pos ≤ q) (hlt : q < (p.run es).pos)
    (hpend : ∀ x, K x → x ∉ p.pending)
    (hes : ∀ x, K x → .enter x ∉ es ∧ .leave x ∉ es) : Ready exact r K (p.run es).pos (p.run es) p' where
  agree := h.agree.run_left hpend hes
  line_le := (h.mono hlt.le).line_le
  near he := by
    have hq : p'.pos ≤ r.move q := by
      rcases h.near he with ⟨hp', -⟩ | hlt
      · rw [hp']
        exact Room.move_le_move_iff.2 hle
      · exact hlt.le
    exact .inr (hq.trans_lt (Room.move_lt_move_iff.2 hlt))

end Ready

end Pen

end UniformAccess
