import UniformAccess.Proofs.Printing.Ink
import UniformAccess.Proofs.Printing.Mapped
/-!
# Two pens on one line

Two pens that have written different texts are abreast as long as they are on the same line. Whatever they are told to
do, they stay abreast or go on to a later line together, and then they are at the same place and write the same from
there on. So if they go through the same events, their texts have the same lines but for those that were written before
(`Abreast.sameLinesBut`).
-/
namespace UniformAccess

/-! ## Lines of a text -/

/-- The lines of a text. What follows the last newline is a line, too, and may be empty. -/
def linesOf (text : String) : List (List Char) := text.toList.splitOn '\n'

/-- **Two texts have the same number of lines, and agree on all of them outside of `first` to `last`.** Lines are
counted from one. -/
structure SameLinesBut (first last : Nat) (text text' : String) : Prop where
  length_eq : (linesOf text').length = (linesOf text).length
  line_eq : ∀ i, i + 1 < first ∨ last < i + 1 → (linesOf text')[i]? = (linesOf text)[i]?

instance (first last : Nat) (text text' : String) : Decidable (SameLinesBut first last text text') :=
  decidable_of_iff ((linesOf text').length = (linesOf text).length ∧
      ∀ i < (linesOf text).length, i + 1 < first ∨ last < i + 1 → (linesOf text')[i]? = (linesOf text)[i]?)
    ⟨fun ⟨hlength, hline⟩ => ⟨hlength, fun i hi => by
      rcases Nat.lt_or_ge i (linesOf text).length with hlt | hge
      · exact hline i hlt hi
      · rw [List.getElem?_eq_none hge, List.getElem?_eq_none (hlength ▸ hge)]⟩,
      fun h => ⟨h.length_eq, fun i _ hi => h.line_eq i hi⟩⟩

theorem splitOn_newline_cons (c : Char) (cs : List Char) :
    (c :: cs).splitOn '\n' = if c = '\n' then [] :: cs.splitOn '\n' else (cs.splitOn '\n').modifyHead (c :: ·) := by
  unfold List.splitOn
  rw [List.splitOnP_cons_eq_if_modifyHead]
  simp only [beq_iff_eq]

theorem length_splitOn_newline (cs : List Char) : (cs.splitOn '\n').length = 1 + cs.count '\n' := by
  induction cs with
  | nil => rfl
  | cons c cs ih =>
    rw [splitOn_newline_cons]
    split
    · rename_i hc
      rw [hc, List.count_cons_self, List.length_cons, ih]
      omega
    · rename_i hc
      rw [List.count_cons_of_ne hc, List.length_modifyHead, ih]

theorem length_linesOf (text : String) : (linesOf text).length = 1 + text.toList.count '\n' := length_splitOn_newline _

theorem linesOf_append_newline (x rest : String) : linesOf (x ++ "\n" ++ rest) = linesOf x ++ linesOf rest := by
  have htext : (x ++ "\n" ++ rest).toList = x.toList ++ '\n' :: rest.toList := by
    rw [String.toList_append, String.toList_append]
    exact List.append_assoc ..
  unfold linesOf List.splitOn
  rw [htext]
  exact List.splitOnP_append_cons _ _ rfl

/-- The lines that are complete do not change when the text grows. -/
theorem getElem?_splitOn_append (cs rest : List Char) : ∀ i < cs.count '\n',
    ((cs ++ rest).splitOn '\n')[i]? = (cs.splitOn '\n')[i]? := by
  induction cs with
  | nil => exact fun i hi => absurd hi (Nat.not_lt_zero i)
  | cons c cs ih =>
    intro i hi
    rw [List.cons_append, splitOn_newline_cons, splitOn_newline_cons]
    by_cases hc : c = '\n'
    · rw [if_pos hc, if_pos hc]
      rw [hc, List.count_cons_self] at hi
      cases i with
      | zero => rfl
      | succ i => exact ih i (by omega)
    · rw [if_neg hc, if_neg hc]
      rw [List.count_cons_of_ne hc] at hi
      rw [List.getElem?_modifyHead, List.getElem?_modifyHead, ih i hi]

theorem linesOf_of_grows {front text : String} (h : front.toList <+: text.toList) {i : Nat}
    (hi : i < front.toList.count '\n') : (linesOf text)[i]? = (linesOf front)[i]? := by
  obtain ⟨rest, hrest⟩ := h
  unfold linesOf
  rw [← hrest]
  exact getElem?_splitOn_append _ _ i hi

/-- **A text that begins with `front` and stops on a line.** -/
structure StopsOn (front : String) (line : Nat) (text : String) : Prop where
  grows : front.toList <+: text.toList
  line_eq : 1 + text.toList.count '\n' = line

theorem StopsOn.sameLinesBut {front x x' : String} {first line : Nat} (h : StopsOn front line x)
    (h' : StopsOn front line x') (hfirst : first ≤ 1 + front.toList.count '\n') (rest : String) :
    SameLinesBut first line (x ++ "\n" ++ rest) (x' ++ "\n" ++ rest) := by
  have hlength : (linesOf x).length = line := (length_linesOf x).trans h.line_eq
  have hlength' : (linesOf x').length = line := (length_linesOf x').trans h'.line_eq
  have hgrows : ∀ {y : String}, front.toList <+: y.toList → front.toList <+: (y ++ "\n" ++ rest).toList := fun hy => by
    rw [String.toList_append, String.toList_append, List.append_assoc]
    exact hy.trans (List.prefix_append ..)
  refine ⟨?_, fun i hi => ?_⟩
  · rw [linesOf_append_newline, linesOf_append_newline, List.length_append, List.length_append, hlength, hlength']
  · rcases hi with hi | hi
    · rw [linesOf_of_grows (hgrows h.grows) (by omega), linesOf_of_grows (hgrows h'.grows) (by omega)]
    · rw [linesOf_append_newline, linesOf_append_newline, List.getElem?_append_right (by omega),
        List.getElem?_append_right (by omega), hlength, hlength']

/-! ## The text that was there before -/

namespace Pen

variable {p p' : Pen} {front x x' text : String} {line first : Nat} {s : Stroke} {es : List Event}

/-- The pen with a text in front of what it has written. -/
def behind (p : Pen) (text : String) : Pen := { p with out := text ++ p.out }

@[simp]
theorem pos_behind (p : Pen) (x : String) : (p.behind x).pos = p.pos := rfl

@[simp]
theorem last_behind (p : Pen) (x : String) : (p.behind x).last = p.last := rfl

theorem behind_space (p : Pen) (x : String) : (p.behind x).space = p.space.behind x := by
  simp only [behind, space, String.append_assoc]

theorem behind_spaces (x : String) (n : Nat) (p : Pen) : (p.behind x).spaces n = (p.spaces n).behind x := by
  induction n generalizing p with
  | zero => rfl
  | succ n ih => rw [spaces, spaces, behind_space, ih]

theorem behind_newline (p : Pen) (x : String) : (p.behind x).newline = p.newline.behind x := by
  simp only [behind, newline, String.append_assoc]

theorem behind_newlines (x : String) (n : Nat) (p : Pen) : (p.behind x).newlines n = (p.newlines n).behind x := by
  induction n generalizing p with
  | zero => rfl
  | succ n ih => rw [newlines, newlines, behind_newline, ih]

theorem behind_goto (p : Pen) (x : String) (q : Pos) : (p.behind x).goto q = (p.goto q).behind x := by
  unfold goto
  simp only [pos_behind, behind_newlines, behind_spaces]
  split <;> rfl

theorem behind_write (p : Pen) (x text : String) : (p.behind x).write text = (p.write text).behind x := by
  unfold write
  split
  · rfl
  · simp only [last_behind, behind_space]
    split <;> simp only [behind, String.append_assoc]

theorem behind_sep (p : Pen) (x : String) (next : Option Pos) : (p.behind x).sep next = (p.sep next).behind x := by
  unfold sep
  show (if p.last = none ∨ p.last = some ' ' ∨ p.last = some '\n' then p.behind x
    else if next.any (p.pos ≤ ·) then p.behind x else (p.behind x).space) = _
  rw [behind_space]
  split
  · rfl
  · split <;> rfl

theorem behind_glue (p : Pen) (x : String) (g : Glue) (prev next : Option Pos) :
    (p.behind x).glue g prev next = (p.glue g prev next).behind x := by
  unfold glue
  cases next with
  | none => exact behind_write p x _
  | some next =>
    simp only [pos_behind, behind_space, behind_write, behind_spaces]
    split
    · split <;> rfl
    · split <;> rfl

theorem behind_stroke (p : Pen) (x : String) : ∀ s : Stroke, (p.behind x).stroke s = (p.stroke s).behind x
  | .goto none => rfl
  | .goto (some q) => behind_goto p x q
  | .write text => behind_write p x text
  | .sep next => behind_sep p x next
  | .glue g prev next => behind_glue p x g prev next

/-! ## Pens abreast -/

/-- **A pen is on a line, after the first column of it**, and has written `front` before. -/
structure OnLine (front : String) (line : Nat) (p : Pen) : Prop where
  grows : front.toList <+: p.out.toList
  aligned : p.Aligned
  line_eq : p.pos.line = line
  lt_col : 1 < p.pos.col

theorem OnLine.stopsOn (h : OnLine front line p) : StopsOn front line p.out := by
  refine ⟨h.grows, ?_⟩
  have haligned : p.pos = Pos.ofText p.out := h.aligned
  rw [← h.line_eq, haligned, Pos.ofText_eq]

theorem OnLine.of_sameInk (h : OnLine front line p) (hink : SameInk p p') : OnLine front line p' := by
  refine ⟨hink.out_eq ▸ h.grows, ?_, hink.pos_eq ▸ h.line_eq, hink.pos_eq ▸ h.lt_col⟩
  unfold Aligned
  rw [hink.pos_eq, hink.out_eq]
  exact h.aligned

/-- **A stroke that does not lead to a later line keeps the pen on the line.** -/
theorem OnLine.stroke (h : OnLine front line p) (htext : ∀ text, s.text? = some text → '\n' ∉ text.toList)
    (hgoto : ∀ q, s = .goto (some q) → q.line ≤ line) : OnLine front line (p.stroke s) := by
  have hwrote := Wrote.stroke p s
  have hline : (p.stroke s).pos.line = line := by
    by_cases hs : ∃ q, s = .goto (some q)
    · obtain ⟨q, rfl⟩ := hs
      have := hgoto q rfl
      show (p.goto q).pos.line = line
      rw [line_goto, h.line_eq]
      omega
    · rw [line_stroke p s fun q hq => hs ⟨q, hq⟩, h.line_eq]
  refine ⟨h.grows.trans hwrote.grows, h.aligned.stroke htext, hline, ?_⟩
  have hle := (Pos.le_def _ _).1 hwrote.pos_le
  have := h.lt_col
  have := h.line_eq
  omega

/-- The way to a later line begins with a newline. -/
theorem goto_of_line_lt {q : Pos} (h : p.pos.line < q.line) : p.goto q = p.newline.goto q := by
  have hn : q.line - p.pos.line = q.line - (p.pos.line + 1) + 1 := by omega
  unfold goto
  rw [hn]
  rfl

/-- **A newline puts all pens on the line at the same place.** -/
theorem OnLine.sameInk_goto (h : OnLine front line p) {q : Pos} (hq : line < q.line) :
    SameInk ((Pen.goto { pos := ⟨line + 1, 1⟩, last := some '\n' } q).behind (p.out ++ "\n")) (p.goto q) := by
  have hgoto : p.goto q = p.newline.goto q := goto_of_line_lt (h.line_eq ▸ hq)
  rw [← behind_goto, hgoto]
  have hink : SameInk (Pen.behind { pos := ⟨line + 1, 1⟩, last := some '\n' } (p.out ++ "\n")) p.newline :=
    ⟨String.append_empty.symm, congrArg (fun l => (⟨l + 1, 1⟩ : Pos)) h.line_eq, rfl⟩
  exact hink.goto q

/-- **Two pens have written the same since they went on from a line.** Up to there both texts begin with `front`. -/
structure Joined (front : String) (line : Nat) (p p' : Pen) : Prop where
  exists_behind : ∃ (q : Pen) (x x' : String), StopsOn front line x ∧ StopsOn front line x' ∧
    SameInk (q.behind (x ++ "\n")) p ∧ SameInk (q.behind (x' ++ "\n")) p'

theorem Joined.stroke (h : Joined front line p p') (s : Stroke) : Joined front line (p.stroke s) (p'.stroke s) := by
  obtain ⟨q, x, x', hx, hx', hink, hink'⟩ := h.exists_behind
  refine ⟨q.stroke s, x, x', hx, hx', ?_, ?_⟩
  · rw [← behind_stroke]
    exact hink.stroke s
  · rw [← behind_stroke]
    exact hink'.stroke s

/-- **Two pens are abreast on a line, or have left it together.** -/
inductive Abreast (front : String) (line : Nat) (p p' : Pen) : Prop
  | apart : OnLine front line p → OnLine front line p' → Abreast front line p p'
  | joined : Joined front line p p' → Abreast front line p p'

namespace Abreast

/-- **Pens stay abreast.** -/
theorem stroke (h : Abreast front line p p') (htext : ∀ text, s.text? = some text → '\n' ∉ text.toList) :
    Abreast front line (p.stroke s) (p'.stroke s) := by
  cases h with
  | joined h => exact .joined (h.stroke s)
  | apart h h' =>
    by_cases hs : ∃ q : Pos, s = .goto (some q) ∧ line < q.line
    · obtain ⟨q, rfl, hq⟩ := hs
      exact .joined ⟨_, p.out, p'.out, h.stopsOn, h'.stopsOn, h.sameInk_goto hq, h'.sameInk_goto hq⟩
    · have hgoto : ∀ q, s = .goto (some q) → q.line ≤ line := fun q hq => Nat.not_lt.1 fun hlt => hs ⟨q, hq, hlt⟩
      exact .apart (h.stroke htext hgoto) (h'.stroke htext hgoto)

theorem of_sameInk {q q' : Pen} (h : Abreast front line p p') (hink : SameInk p q) (hink' : SameInk p' q') :
    Abreast front line q q' := by
  cases h with
  | apart h h' => exact .apart (h.of_sameInk hink) (h'.of_sameInk hink')
  | joined h =>
    obtain ⟨r, x, x', hx, hx', hr, hr'⟩ := h.exists_behind
    exact .joined ⟨r, x, x', hx, hx', hr.trans hink, hr'.trans hink'⟩

theorem run (hes : ∀ s text, .stroke s ∈ es → s.text? = some text → '\n' ∉ text.toList) (h : Abreast front line p p') :
    Abreast front line (p.run es) (p'.run es) := by
  induction es generalizing p p' with
  | nil => exact h
  | cons e es ih =>
    refine ih (fun s text hs => hes s text (List.mem_cons_of_mem _ hs)) ?_
    cases e with
    | stroke s => exact h.stroke fun text => hes s text List.mem_cons_self
    | enter id => exact h.of_sameInk (.enter p id) (.enter p' id)
    | leave id => exact h.of_sameInk (.leave p id) (.leave p' id)

end Abreast

/-! ## The whole text -/

/-- The text with a newline at its end, unless it is empty. -/
def closed (text : String) : String := if text.isEmpty || text.toList.getLast? == some '\n' then text else text ++ "\n"

theorem closed_of_onLine (h : OnLine front line p) : closed p.out = p.out ++ "\n" ++ "" := by
  have haligned : p.pos = Pos.ofText p.out := h.aligned
  have hcol := h.lt_col
  rw [haligned, Pos.ofText_eq] at hcol
  have hlast : ∃ c, p.out.toList.getLast? = some c ∧ c ≠ '\n' := by
    rcases List.eq_nil_or_concat' p.out.toList with hnil | ⟨cs, c, hcs⟩
    · rw [hnil] at hcol
      exact absurd hcol (by decide)
    · refine ⟨c, by rw [hcs, List.getLast?_concat], fun hc => ?_⟩
      rw [hcs, hc, List.reverse_concat, List.takeWhile_cons_of_neg (by decide)] at hcol
      exact absurd hcol (Nat.lt_irrefl 1)
  obtain ⟨c, hc, hne⟩ := hlast
  have hempty : p.out.isEmpty = false := by
    rw [Bool.eq_false_iff, ne_eq, String.isEmpty_iff]
    intro hnil
    rw [hnil] at hc
    cases hc
  unfold closed
  rw [hempty, hc, String.append_empty]
  simp [hne]

theorem closed_append (x rest : String) : closed (x ++ "\n" ++ rest) =
    x ++ "\n" ++ (if rest.toList.getLast?.all (· == '\n') then rest else rest ++ "\n") := by
  have hlist : (x ++ "\n" ++ rest).toList = x.toList ++ ['\n'] ++ rest.toList := by
    rw [String.toList_append, String.toList_append]
    rfl
  have hempty : (x ++ "\n" ++ rest).isEmpty = false := by
    rw [Bool.eq_false_iff, ne_eq, String.isEmpty_iff]
    intro hnil
    rw [hnil] at hlist
    simp at hlist
  unfold closed
  rw [hempty, hlist, Bool.false_or]
  cases hrest : rest.toList.getLast? with
  | none =>
    rw [List.getLast?_eq_none_iff.1 hrest]
    simp
  | some c =>
    have hne : rest.toList ≠ [] := fun hnil => by rw [hnil] at hrest; cases hrest
    rw [List.getLast?_append_of_ne_nil _ hne, hrest]
    by_cases hc : c = '\n'
    · simp [hc]
    · simp [hc, String.append_assoc]

/-- **Pens that are abreast have written the same lines**, but for those up to where they were apart. -/
theorem Abreast.sameLinesBut (h : Abreast front line p p') (hfirst : first ≤ 1 + front.toList.count '\n') :
    SameLinesBut first line (closed p.out) (closed p'.out) := by
  cases h with
  | apart h h' =>
    rw [closed_of_onLine h, closed_of_onLine h']
    exact h.stopsOn.sameLinesBut h'.stopsOn hfirst ""
  | joined h =>
    obtain ⟨q, x, x', hx, hx', hink, hink'⟩ := h.exists_behind
    rw [hink.out_eq, hink'.out_eq]
    show SameLinesBut first line (closed (x ++ "\n" ++ q.out)) (closed (x' ++ "\n" ++ q.out))
    rw [closed_append, closed_append]
    exact hx.sameLinesBut hx' hfirst _

end Pen

end UniformAccess
