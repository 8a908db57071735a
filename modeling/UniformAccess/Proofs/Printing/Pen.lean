import UniformAccess.Printing.Pen
import UniformAccess.Proofs.Position
/-!
# What the pen does

The pen only goes forward (`le_run`), and it comes to a new line only by being sent there (`line_run_le`). A stroke
either writes no text, or it clears the list of nodes that wait for theirs (`stroke_cases`). So a node that is entered
once and left once begins with the first text after it was entered, and stops where it is left.
-/
namespace UniformAccess

/-- Whether the last character leaves room for a word: there is none, or it is a blank. -/
def Blank (c : Option Char) : Prop := c = none ∨ c = some ' ' ∨ c = some '\n'

theorem Blank.not_ident {c : Option Char} (h : Blank c) : c.any isIdentChar = false := by
  rcases h with rfl | rfl | rfl <;> decide

namespace Pen

variable {p : Pen} {q : Pos} {x : NodeId} {text : String}

/-! ## Blanks -/

@[simp]
theorem pending_space (p : Pen) : p.space.pending = p.pending := rfl

@[simp]
theorem starts_space (p : Pen) : p.space.starts = p.starts := rfl

@[simp]
theorem layout_space (p : Pen) : p.space.layout = p.layout := rfl

@[simp]
theorem pos_space (p : Pen) : p.space.pos = p.pos.right 1 := rfl

@[simp]
theorem last_space (p : Pen) : p.space.last = some ' ' := rfl

theorem spaces_spec (n : Nat) : ∀ p : Pen, (p.spaces n).pos = p.pos.right n ∧
    (p.spaces n).pending = p.pending ∧ (p.spaces n).starts = p.starts ∧ (p.spaces n).layout = p.layout ∧
    (0 < n → (p.spaces n).last = some ' ') := by
  induction n with
  | zero => exact fun p => ⟨rfl, rfl, rfl, rfl, fun h => absurd h (Nat.lt_irrefl 0)⟩
  | succ n ih =>
    intro p
    obtain ⟨hpos, hpending, hstarts, hlayout, hlast⟩ := ih p.space
    refine ⟨?_, hpending, hstarts, hlayout, fun _ => ?_⟩
    · rw [spaces, hpos, pos_space, Pos.right_right, Nat.add_comm]
    · rcases Nat.eq_zero_or_pos n with rfl | hn
      · rfl
      · exact hlast hn

@[simp]
theorem pos_spaces (p : Pen) (n : Nat) : (p.spaces n).pos = p.pos.right n := (spaces_spec n p).1

@[simp]
theorem pending_spaces (p : Pen) (n : Nat) : (p.spaces n).pending = p.pending := (spaces_spec n p).2.1

@[simp]
theorem starts_spaces (p : Pen) (n : Nat) : (p.spaces n).starts = p.starts := (spaces_spec n p).2.2.1

@[simp]
theorem layout_spaces (p : Pen) (n : Nat) : (p.spaces n).layout = p.layout := (spaces_spec n p).2.2.2.1

theorem last_spaces (p : Pen) {n : Nat} (h : 0 < n) : (p.spaces n).last = some ' ' := (spaces_spec n p).2.2.2.2 h

theorem newlines_spec (n : Nat) : ∀ p : Pen, (p.newlines n).pos = (if n = 0 then p.pos else ⟨p.pos.line + n, 1⟩) ∧
    (p.newlines n).pending = p.pending ∧ (p.newlines n).starts = p.starts ∧ (p.newlines n).layout = p.layout ∧
    (0 < n → (p.newlines n).last = some '\n') := by
  induction n with
  | zero => exact fun p => ⟨rfl, rfl, rfl, rfl, fun h => absurd h (Nat.lt_irrefl 0)⟩
  | succ n ih =>
    intro p
    obtain ⟨hpos, hpending, hstarts, hlayout, hlast⟩ := ih p.newline
    refine ⟨?_, hpending, hstarts, hlayout, fun _ => ?_⟩
    · rw [newlines, hpos, if_neg n.succ_ne_zero]
      split
      · rename_i hn
        rw [hn]
        rfl
      · ext
        · show p.pos.line + 1 + n = p.pos.line + (n + 1)
          omega
        · rfl
    · rcases Nat.eq_zero_or_pos n with rfl | hn
      · rfl
      · exact hlast hn

/-! ## Going to a position -/

theorem goto_of_le (h : q ≤ p.pos) : p.goto q = p := by
  have hn : q.line - p.pos.line = 0 := by have := Pos.line_le_line h; omega
  unfold goto
  rw [hn]
  show (if q.line = p.pos.line then p.spaces (q.col - p.pos.col) else p) = p
  split
  · have : q.col - p.pos.col = 0 := by rw [Pos.le_def] at h; omega
    rw [this]
    rfl
  · rfl

theorem line_goto (p : Pen) (q : Pos) : (p.goto q).pos.line = max p.pos.line q.line := by
  obtain ⟨hpos, -⟩ := newlines_spec (q.line - p.pos.line) p
  unfold goto
  dsimp only
  split
  · rename_i hline
    rw [pos_spaces, Pos.line_right, ← hline]
    split at hpos
    · rw [hpos] at hline; omega
    · rw [hpos] at hline; simp only at hline; omega
  · rename_i hline
    split at hpos
    · rw [hpos] at hline ⊢; omega
    · rw [hpos] at hline; simp only at hline; omega

theorem goto_of_lt (h : p.pos < q) (hcol : 1 ≤ q.col) : (p.goto q).pos = q ∧ Blank (p.goto q).last := by
  obtain ⟨hpos, -, -, -, hlast⟩ := newlines_spec (q.line - p.pos.line) p
  rw [Pos.lt_def] at h
  unfold goto
  dsimp only
  rcases h with hline | ⟨hline, hc⟩
  · rw [if_neg (by omega)] at hpos
    rw [if_pos (by rw [hpos]; show q.line = p.pos.line + (q.line - p.pos.line); omega)]
    refine ⟨?_, ?_⟩
    · rw [pos_spaces, hpos]
      ext
      · show p.pos.line + (q.line - p.pos.line) = q.line
        omega
      · show 1 + (q.col - 1) = q.col
        omega
    · rcases Nat.eq_zero_or_pos (q.col - (p.newlines (q.line - p.pos.line)).pos.col) with hz | hz
      · rw [hz]
        exact .inr (.inr (hlast (by omega)))
      · exact .inr (.inl (last_spaces _ hz))
  · have hn : q.line - p.pos.line = 0 := by omega
    rw [hn] at hpos ⊢
    show (if q.line = p.pos.line then p.spaces (q.col - p.pos.col) else p).pos = q ∧
      Blank (if q.line = p.pos.line then p.spaces (q.col - p.pos.col) else p).last
    rw [if_pos hline.symm]
    refine ⟨?_, .inr (.inl (last_spaces _ (by omega)))⟩
    rw [pos_spaces]
    ext
    · exact hline
    · show p.pos.col + (q.col - p.pos.col) = q.col
      omega

theorem pos_goto (p : Pen) (hcol : 1 ≤ q.col) : (p.goto q).pos = max p.pos q := by
  rcases lt_or_ge p.pos q with h | h
  · rw [(goto_of_lt h hcol).1, max_eq_right h.le]
  · rw [goto_of_le h, max_eq_left h]

theorem goto_spec (p : Pen) (q : Pos) : p.pos ≤ (p.goto q).pos ∧ (p.goto q).pending = p.pending ∧
    (p.goto q).starts = p.starts ∧ (p.goto q).layout = p.layout := by
  obtain ⟨hpos, hpending, hstarts, hlayout, -⟩ := newlines_spec (q.line - p.pos.line) p
  have hle : p.pos ≤ (p.newlines (q.line - p.pos.line)).pos := by
    rw [hpos]
    split
    · exact le_refl _
    · rw [Pos.le_def]
      simp only
      omega
  unfold goto
  dsimp only
  split
  · refine ⟨hle.trans ?_, ?_, ?_, ?_⟩
    · rw [pos_spaces]
      exact Pos.le_right _ _
    · rw [pending_spaces, hpending]
    · rw [starts_spaces, hstarts]
    · rw [layout_spaces, hlayout]
  · exact ⟨hle, hpending, hstarts, hlayout⟩

/-! ## Writing -/

/-- Whether the text would run together with the last word. -/
def joins (p : Pen) (text : String) : Bool := p.last.any isIdentChar && text.toList.head?.any isIdentChar

/-- The columns that the pen leaves before a text. -/
def lead (p : Pen) (text : String) : Nat := if p.joins text then 1 else 0

theorem lead_of_blank (h : Blank p.last) (text : String) : p.lead text = 0 := by
  unfold lead joins
  rw [h.not_ident]
  rfl

theorem write_empty (p : Pen) : p.write "" = p := by simp [write]

theorem write_spec (p : Pen) (h : text ≠ "") : (p.write text).pos = p.pos.right (p.lead text + text.length) ∧
    (p.write text).last = text.toList.getLast? ∧ (p.write text).pending = [] ∧
    (p.write text).starts = p.starts.insertAll p.pending (p.pos.right (p.lead text)) ∧
    (p.write text).layout = p.layout := by
  unfold write
  split
  · rename_i hnil
    exact absurd (String.toList_eq_nil_iff.1 hnil) h
  · rename_i first rest hcons
    have hjoins : (p.last.any isIdentChar && isIdentChar first) = p.joins text := by
      unfold joins
      rw [hcons]
      rfl
    unfold lead
    rw [hjoins]
    by_cases hj : p.joins text = true
    · rw [if_pos hj, if_pos hj]
      exact ⟨Pos.right_right _ _ _, rfl, rfl, rfl, rfl⟩
    · rw [if_neg hj, if_neg hj, Nat.zero_add]
      exact ⟨rfl, rfl, rfl, rfl, rfl⟩

theorem pos_write (p : Pen) (h : text ≠ "") : (p.write text).pos = p.pos.right (p.lead text + text.length) :=
  (write_spec p h).1

theorem last_write (p : Pen) (h : text ≠ "") : (p.write text).last = text.toList.getLast? := (write_spec p h).2.1

theorem pending_write (p : Pen) (h : text ≠ "") : (p.write text).pending = [] := (write_spec p h).2.2.1

theorem starts_write (p : Pen) (h : text ≠ "") :
    (p.write text).starts = p.starts.insertAll p.pending (p.pos.right (p.lead text)) := (write_spec p h).2.2.2.1

@[simp]
theorem layout_write (p : Pen) (text : String) : (p.write text).layout = p.layout := by
  by_cases h : text = ""
  · rw [h, write_empty]
  · exact (write_spec p h).2.2.2.2

theorem length_pos (h : text ≠ "") : 0 < text.length := by
  rw [← String.length_toList, List.length_pos_iff]
  exact fun hnil => h (String.toList_eq_nil_iff.1 hnil)

theorem sep_eq (p : Pen) (next : Option Pos) : p.sep next = p ∨ p.sep next = p.space := by
  unfold sep
  split
  · exact .inl rfl
  · split
    · exact .inl rfl
    · exact .inr rfl

theorem sep_of_blank (h : Blank p.last) (next : Option Pos) : p.sep next = p := if_pos h

theorem sep_of_le (h : p.pos ≤ q) : p.sep (some q) = p := by
  unfold sep
  split
  · rfl
  · rw [if_pos (by simpa using h)]

theorem sep_of_not_le {next : Option Pos} (h : ¬ Blank p.last) (hn : ∀ q ∈ next, ¬ p.pos ≤ q) :
    p.sep next = p.space := by
  unfold Blank at h
  unfold sep
  rw [if_neg h, if_neg]
  intro hany
  obtain ⟨q, hq, hle⟩ := (Option.any_eq_true _ _).1 hany
  exact hn q hq (by simpa using hle)

/-! ## The text grows -/

theorem grows_spaces (p : Pen) (n : Nat) : p.out.toList <+: (p.spaces n).out.toList := by
  induction n generalizing p with
  | zero => exact List.prefix_rfl
  | succ n ih =>
    refine List.IsPrefix.trans ?_ (ih p.space)
    show p.out.toList <+: (p.out ++ " ").toList
    rw [String.toList_append]
    exact List.prefix_append _ _

theorem grows_newlines (p : Pen) (n : Nat) : p.out.toList <+: (p.newlines n).out.toList := by
  induction n generalizing p with
  | zero => exact List.prefix_rfl
  | succ n ih =>
    refine List.IsPrefix.trans ?_ (ih p.newline)
    show p.out.toList <+: (p.out ++ "\n").toList
    rw [String.toList_append]
    exact List.prefix_append _ _

theorem grows_goto (p : Pen) (q : Pos) : p.out.toList <+: (p.goto q).out.toList := by
  unfold goto
  dsimp only
  split
  · exact (grows_newlines p _).trans (grows_spaces _ _)
  · exact grows_newlines p _

/-- A text is written after what was there, and at most a space. -/
theorem out_write (p : Pen) (text : String) : ∃ blank : String, (p.write text).out = p.out ++ blank ++ text := by
  unfold write
  split
  · rename_i hnil
    exact ⟨"", by rw [String.toList_eq_nil_iff.1 hnil, String.append_empty, String.append_empty]⟩
  · split
    · exact ⟨" ", rfl⟩
    · exact ⟨"", by rw [String.append_empty]⟩

theorem grows_write (p : Pen) (text : String) : p.out.toList <+: (p.write text).out.toList := by
  obtain ⟨blank, h⟩ := out_write p text
  rw [h, String.append_assoc, String.toList_append]
  exact List.prefix_append _ _

/-! ## One stroke -/

/-- **What one stroke or several do**: the pen goes forward, and it may write text, so that the nodes that waited for
theirs begin. -/
structure Wrote (p p' : Pen) : Prop where
  pos_le : p.pos ≤ p'.pos
  grows : p.out.toList <+: p'.out.toList
  layout_eq : p'.layout = p.layout
  books : p'.pending = p.pending ∧ p'.starts = p.starts ∨
    ∃ q, p.pos ≤ q ∧ q < p'.pos ∧ p'.pending = [] ∧ p'.starts = p.starts.insertAll p.pending q

namespace Wrote

variable {p' p'' : Pen}

theorem refl (p : Pen) : Wrote p p := ⟨le_refl _, List.prefix_rfl, rfl, .inl ⟨rfl, rfl⟩⟩

theorem trans (h : Wrote p p') (h' : Wrote p' p'') : Wrote p p'' := by
  refine ⟨h.pos_le.trans h'.pos_le, h.grows.trans h'.grows, h'.layout_eq.trans h.layout_eq, ?_⟩
  rcases h.books with ⟨hp, hs⟩ | ⟨q, hpq, hq, hp, hs⟩
  · rcases h'.books with ⟨hp', hs'⟩ | ⟨q', hpq', hq', hp', hs'⟩
    · exact .inl ⟨hp'.trans hp, hs'.trans hs⟩
    · exact .inr ⟨q', h.pos_le.trans hpq', hq', hp', by rw [hs', hs, hp]⟩
  · refine .inr ⟨q, hpq, hq.trans_le h'.pos_le, ?_⟩
    rcases h'.books with ⟨hp', hs'⟩ | ⟨q', -, -, hp', hs'⟩
    · exact ⟨hp'.trans hp, hs'.trans hs⟩
    · exact ⟨hp', by rw [hs', hp]; exact hs⟩

theorem space (p : Pen) : Wrote p p.space := ⟨Pos.le_right _ _, grows_spaces p 1, rfl, .inl ⟨rfl, rfl⟩⟩

theorem spaces (p : Pen) (n : Nat) : Wrote p (p.spaces n) :=
  ⟨by rw [pos_spaces]; exact Pos.le_right _ _, grows_spaces p n, layout_spaces p n,
  .inl ⟨pending_spaces p n, starts_spaces p n⟩⟩

theorem write (p : Pen) (text : String) : Wrote p (p.write text) := by
  by_cases h : text = ""
  · rw [h, write_empty]
    exact refl p
  · refine ⟨?_, grows_write p text, layout_write p text,
      .inr ⟨p.pos.right (p.lead text), Pos.le_right _ _, ?_, pending_write p h, starts_write p h⟩⟩
    · rw [pos_write p h]
      exact Pos.le_right _ _
    · rw [pos_write p h, ← Pos.right_right]
      exact Pos.lt_right _ (length_pos h)

theorem sep (p : Pen) (next : Option Pos) : Wrote p (p.sep next) := by
  rcases sep_eq p next with h | h
  · rw [h]
    exact refl p
  · rw [h]
    exact space p

theorem glue (p : Pen) (g : Glue) (prev next : Option Pos) : Wrote p (p.glue g prev next) := by
  unfold Pen.glue
  dsimp only
  split
  · exact write p _
  · split
    · split
      · exact ((space p).trans (write _ _)).trans (spaces _ _)
      · exact (write p _).trans (spaces _ _)
    · split
      · exact write p _
      · exact write p _

theorem stroke (p : Pen) : ∀ s : Stroke, Wrote p (p.stroke s)
  | .goto none => refl p
  | .goto (some q) => by
    obtain ⟨hpos, hpending, hstarts, hlayout⟩ := goto_spec p q
    exact ⟨hpos, grows_goto p q, hlayout, .inl ⟨hpending, hstarts⟩⟩
  | .write text => write p text
  | .sep next => sep p next
  | .glue g prev next => glue p g prev next

end Wrote

/-- No other stroke goes to another line. -/
theorem line_stroke (p : Pen) : ∀ s : Stroke, (∀ q, s ≠ .goto (some q)) → (p.stroke s).pos.line = p.pos.line := by
  have hwrite : ∀ (p : Pen) (text : String), (p.write text).pos.line = p.pos.line := fun p text => by
    by_cases h : text = ""
    · rw [h, write_empty]
    · rw [pos_write p h, Pos.line_right]
  intro s hs
  match s with
  | .goto none => rfl
  | .goto (some q) => exact absurd rfl (hs q)
  | .write text => exact hwrite p text
  | .sep next =>
    show (p.sep next).pos.line = p.pos.line
    rcases sep_eq p next with h | h <;> rw [h]
    rfl
  | .glue g prev next =>
    show (p.glue g prev next).pos.line = p.pos.line
    unfold glue
    dsimp only
    split
    · exact hwrite p _
    · split
      · split
        · rw [pos_spaces, Pos.line_right, hwrite, pos_space, Pos.line_right]
        · rw [pos_spaces, Pos.line_right, hwrite]
      · split <;> exact hwrite p _

/-! ## Runs -/

variable {es : List Event}

@[simp]
theorem run_nil (p : Pen) : p.run [] = p := rfl

@[simp]
theorem run_cons (p : Pen) (e : Event) (es : List Event) : p.run (e :: es) = (p.step e).run es := rfl

theorem run_append (p : Pen) (es es' : List Event) : p.run (es ++ es') = (p.run es).run es' := List.foldl_append

theorem le_step (p : Pen) : ∀ e : Event, p.pos ≤ (p.step e).pos
  | .stroke s => (Wrote.stroke p s).pos_le
  | .enter _ => le_refl _
  | .leave _ => le_refl _

/-- **The pen only goes forward.** -/
theorem le_run (p : Pen) (es : List Event) : p.pos ≤ (p.run es).pos := by
  induction es generalizing p with
  | nil => exact le_refl _
  | cons e es ih => exact (le_step p e).trans (ih _)

theorem grows_run (p : Pen) (es : List Event) : p.out.toList <+: (p.run es).out.toList := by
  induction es generalizing p with
  | nil => exact List.prefix_rfl
  | cons e es ih =>
    refine List.IsPrefix.trans ?_ (ih _)
    match e with
    | .enter _ => exact List.prefix_rfl
    | .leave _ => exact List.prefix_rfl
    | .stroke s => exact (Wrote.stroke p s).grows

/-- **The pen comes to a line only by being sent there.** -/
theorem line_run_le {bound : Nat} (hes : ∀ q : Pos, .stroke (.goto (some q)) ∈ es → q.line ≤ bound)
    (hp : p.pos.line ≤ bound) : (p.run es).pos.line ≤ bound := by
  induction es generalizing p with
  | nil => exact hp
  | cons e es ih =>
    refine ih (fun q hq => hes q (List.mem_cons_of_mem _ hq)) ?_
    match e with
    | .enter _ => exact hp
    | .leave _ => exact hp
    | .stroke s =>
      show (p.stroke s).pos.line ≤ bound
      by_cases hs : ∃ q, s = .goto (some q)
      · obtain ⟨q, rfl⟩ := hs
        have hq := hes q List.mem_cons_self
        show (p.goto q).pos.line ≤ bound
        rw [line_goto]
        omega
      · rw [line_stroke p s (not_exists.1 hs)]
        exact hp

theorem layout_step_of_ne {e : Event} (he : e ≠ .leave x) : (p.step e).layout.get? x = p.layout.get? x := by
  match e with
  | .enter _ => rfl
  | .stroke s => rw [step, (Wrote.stroke p s).layout_eq]
  | .leave y =>
    have hxy : x ≠ y := fun h => he (h ▸ rfl)
    show (p.leave y).layout.get? x = _
    unfold leave
    dsimp only
    split
    · rw [NodeMap.get?_insert, if_neg hxy]
    · rfl

/-- A node that has begun gets its place when it is left. -/
theorem layout_leave (hx : p.starts.get? x = some q) : (p.leave x).layout.get? x = some ⟨q, p.pos⟩ := by
  unfold leave
  rw [hx]
  exact (NodeMap.get?_insert _ _ _ _).trans (if_pos rfl)

theorem layout_leave_of_none (hx : p.starts.get? x = none) : (p.leave x).layout = p.layout := by
  unfold leave
  rw [hx]

/-- What is known of a node does not change before it is left. -/
theorem layout_run (hes : .leave x ∉ es) : (p.run es).layout.get? x = p.layout.get? x := by
  induction es generalizing p with
  | nil => rfl
  | cons e es ih =>
    rw [List.mem_cons, not_or] at hes
    rw [run_cons, ih hes.2, layout_step_of_ne (Ne.symm hes.1)]

/-- A node that does not wait is not made to wait, and its text has begun or not. -/
theorem run_of_not_pending (hx : x ∉ p.pending) (hes : .enter x ∉ es) :
    x ∉ (p.run es).pending ∧ (p.run es).starts.get? x = p.starts.get? x := by
  induction es generalizing p with
  | nil => exact ⟨hx, rfl⟩
  | cons e es ih =>
    rw [List.mem_cons, not_or] at hes
    suffices h : x ∉ (p.step e).pending ∧ (p.step e).starts.get? x = p.starts.get? x by
      obtain ⟨hpending, hstarts⟩ := ih h.1 hes.2
      exact ⟨hpending, hstarts.trans h.2⟩
    match e with
    | .enter y => exact ⟨fun h => (List.mem_cons.1 h).elim (fun hxy => hes.1 (hxy ▸ rfl)) hx, rfl⟩
    | .leave y => exact ⟨fun h => hx (List.mem_filter.1 h).1, rfl⟩
    | .stroke s =>
      rcases (Wrote.stroke p s).books with ⟨hp, hs⟩ | ⟨q, -, -, hp, hs⟩
      · rw [step, hp, hs]
        exact ⟨hx, rfl⟩
      · rw [step, hp, hs, NodeMap.get?_insertAll, if_neg hx]
        exact ⟨List.not_mem_nil, rfl⟩

/-- **A node that waits begins with the first text that is written.** -/
theorem run_of_pending (hx : x ∈ p.pending) (henter : .enter x ∉ es) (hleave : .leave x ∉ es) :
    x ∈ (p.run es).pending ∧ (p.run es).starts = p.starts ∨
      x ∉ (p.run es).pending ∧ ∃ q, (p.run es).starts.get? x = some q ∧ p.pos ≤ q ∧ q < (p.run es).pos := by
  induction es generalizing p with
  | nil => exact .inl ⟨hx, rfl⟩
  | cons e es ih =>
    rw [List.mem_cons, not_or] at henter hleave
    rw [run_cons]
    have hwait : x ∈ (p.step e).pending → (p.step e).starts = p.starts →
        x ∈ ((p.step e).run es).pending ∧ ((p.step e).run es).starts = p.starts ∨
        x ∉ ((p.step e).run es).pending ∧ ∃ q, ((p.step e).run es).starts.get? x = some q ∧ p.pos ≤ q ∧
          q < ((p.step e).run es).pos := fun hp hs => by
      rcases ih hp henter.2 hleave.2 with ⟨hp', hs'⟩ | ⟨hp', q, hq, hle, hlt⟩
      · exact .inl ⟨hp', hs'.trans hs⟩
      · exact .inr ⟨hp', q, hq, (le_step p e).trans hle, hlt⟩
    match e with
    | .enter y => exact hwait (List.mem_cons_of_mem _ hx) rfl
    | .leave y =>
      refine hwait (List.mem_filter.2 ⟨hx, ?_⟩) rfl
      exact decide_eq_true fun hxy => hleave.1 (hxy ▸ rfl)
    | .stroke s =>
      rcases (Wrote.stroke p s).books with ⟨hp, hs⟩ | ⟨q, hle, hlt, hp, hs⟩
      · exact hwait (by rw [step, hp]; exact hx) hs
      · have hnot : x ∉ (p.step (.stroke s)).pending := by
          rw [step, hp]
          exact List.not_mem_nil
        obtain ⟨hp', hs'⟩ := run_of_not_pending hnot henter.2
        refine .inr ⟨hp', q, ?_, hle, hlt.trans_le (le_run _ es)⟩
        rw [hs', step, hs, NodeMap.get?_insertAll, if_pos hx]

/-! ## The life of a node -/

/-- The pen after some events, from the start. -/
def after (es : List Event) : Pen := Pen.run {} es

theorem after_append (es es' : List Event) : after (es ++ es') = (after es).run es' := run_append _ es es'

theorem after_le_after (es es' : List Event) : (after es).pos ≤ (after (es ++ es')).pos := by
  rw [after_append]
  exact le_run _ _

section

variable {front mid back : List Event} {s : Span} (hfront : .enter x ∉ front) (hmid : .enter x ∉ mid)
  (hfront' : .leave x ∉ front) (hmid' : .leave x ∉ mid) (hback : .leave x ∉ back)
  (hlayout : (after (front ++ Event.enter x :: (mid ++ Event.leave x :: back))).layout.get? x = some s)
include hfront hmid hfront' hmid' hback hlayout

omit hfront hmid in
/-- **A node stops where the pen is when it is left**, and its text has begun by then. -/
theorem life_stop : (after (front ++ Event.enter x :: mid)).pos = s.stop ∧
    (after (front ++ Event.enter x :: mid)).starts.get? x = some s.start := by
  have hnone : (after (front ++ Event.enter x :: mid)).layout.get? x = none := by
    have hes : .leave x ∉ front ++ Event.enter x :: mid := by simp [hfront', hmid']
    exact layout_run hes
  have hsplit : front ++ Event.enter x :: (mid ++ Event.leave x :: back) =
    (front ++ Event.enter x :: mid) ++ Event.leave x :: back := by simp
  rw [hsplit, after_append, run_cons, layout_run hback] at hlayout
  generalize after (front ++ Event.enter x :: mid) = p at hlayout hnone ⊢
  rw [step] at hlayout
  cases hstart : p.starts.get? x with
  | none =>
    rw [layout_leave_of_none hstart] at hlayout
    exact absurd (hnone.symm.trans hlayout) nofun
  | some start =>
    rw [layout_leave hstart] at hlayout
    cases hlayout
    exact ⟨rfl, rfl⟩

/-- **As long as the node waits, the pen has not come further than its beginning.** -/
theorem life_start {mid₁ mid₂ : List Event} (hm : mid = mid₁ ++ mid₂) :
    (x ∈ (after (front ++ Event.enter x :: mid₁)).pending → (after (front ++ Event.enter x :: mid₁)).pos ≤ s.start ∧
      s.start < s.stop) ∧
    (x ∉ (after (front ++ Event.enter x :: mid₁)).pending →
      (after (front ++ Event.enter x :: mid₁)).starts.get? x = some s.start) := by
  obtain ⟨hstop, hstart⟩ := life_stop hfront' hmid' hback hlayout
  subst hm
  have hsplit : front ++ Event.enter x :: (mid₁ ++ mid₂) = (front ++ Event.enter x :: mid₁) ++ mid₂ := by simp
  rw [hsplit, after_append] at hstop hstart
  generalize hp : after (front ++ Event.enter x :: mid₁) = p at hstop hstart ⊢
  rw [List.mem_append, not_or] at hmid hmid'
  refine ⟨fun hx => ?_, fun hx => ?_⟩
  · rcases run_of_pending hx hmid.2 hmid'.2 with ⟨-, hs⟩ | ⟨-, q, hq, hle, hlt⟩
    · -- a node that waits has not begun
      have hnone : p.starts.get? x = none := by
        have hbegin : (after (front ++ [Event.enter x])).starts.get? x = none := by
          rw [after_append]
          exact (run_of_not_pending List.not_mem_nil hfront).2
        have hpend : x ∈ (after (front ++ [Event.enter x])).pending := by
          rw [after_append]
          exact List.mem_cons_self
        have hrun : p = (after (front ++ [Event.enter x])).run mid₁ := by
          rw [← hp, ← after_append]
          simp
        rcases run_of_pending hpend hmid.1 hmid'.1 with ⟨-, hs⟩ | ⟨hnot, -⟩
        · rw [hrun, hs, hbegin]
        · exact absurd (hrun ▸ hx) hnot
      rw [hs, hnone] at hstart
      cases hstart
    · obtain rfl : q = s.start := Option.some.inj (hq.symm.trans hstart)
      exact ⟨hle, hstop ▸ hlt⟩
  · rw [← (run_of_not_pending hx hmid.2).2, hstart]

end

end Pen

end UniformAccess
