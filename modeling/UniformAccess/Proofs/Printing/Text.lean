import UniformAccess.Proofs.Printing.Events
import UniformAccess.Proofs.Printing.Pen
import UniformAccess.Proofs.Printing.Script
/-!
# Where the pen is in its text

The pen keeps the position of the next character itself. If no stroke writes a newline of its own, that position is the
end of the text written so far (`Aligned`). A stroke that writes something moves the pen, so a node that writes
something has a place in the layout, and it stops where the text ends that is written when the node is left.
-/
namespace UniformAccess

/-! ## Positions in a text -/

namespace Pos

/-- The position after a character at `p`. -/
def past (p : Pos) (c : Char) : Pos := if c = '\n' then ⟨p.line + 1, 1⟩ else p.right 1

/-- The position at the end of a text. -/
def ofText (text : String) : Pos := text.toList.foldl past ⟨1, 1⟩

theorem foldl_past {cs : List Char} (h : '\n' ∉ cs) : ∀ p : Pos, cs.foldl past p = p.right cs.length := by
  induction cs with
  | nil => exact fun _ => rfl
  | cons c cs ih =>
    intro p
    rw [List.mem_cons, not_or] at h
    rw [List.foldl_cons, ih h.2, past, if_neg (Ne.symm h.1), right_right, List.length_cons, Nat.add_comm]

/-- **A text on one line moves its end by its length.** -/
theorem ofText_append {text : String} (h : '\n' ∉ text.toList) (before : String) :
    ofText (before ++ text) = (ofText before).right text.length := by
  unfold ofText
  rw [String.toList_append, List.foldl_append, foldl_past h, String.length_toList]

theorem ofText_newline (before : String) : ofText (before ++ "\n") = ⟨(ofText before).line + 1, 1⟩ := by
  unfold ofText
  rw [String.toList_append, List.foldl_append]
  rfl

end Pos

/-- The text that a stroke has to write, without the blanks around it. -/
def Stroke.text? : Stroke → Option String
  | write text => some text
  | glue g _ _ => some g.token
  | _ => none

namespace Pen

variable {p p' : Pen} {s : Stroke} {text : String} {es : List Event} {x : NodeId}

/-! ## The end of the text -/

/-- **The pen is at the end of its text.** -/
def Aligned (p : Pen) : Prop := p.pos = Pos.ofText p.out

theorem Aligned.space (h : p.Aligned) : p.space.Aligned := by
  unfold Aligned at h ⊢
  show p.pos.right 1 = Pos.ofText (p.out ++ " ")
  rw [h, Pos.ofText_append (by decide)]
  rfl

theorem Aligned.spaces (h : p.Aligned) (n : Nat) : (p.spaces n).Aligned := by
  induction n generalizing p with
  | zero => exact h
  | succ n ih =>
    rw [Pen.spaces]
    exact ih h.space

theorem Aligned.newlines (h : p.Aligned) (n : Nat) : (p.newlines n).Aligned := by
  induction n generalizing p with
  | zero => exact h
  | succ n ih =>
    have hnewline : p.newline.Aligned := by
      unfold Aligned at h ⊢
      show (⟨p.pos.line + 1, 1⟩ : Pos) = Pos.ofText (p.out ++ "\n")
      rw [h, Pos.ofText_newline]
    rw [Pen.newlines]
    exact ih hnewline

theorem Aligned.write (h : p.Aligned) (htext : '\n' ∉ text.toList) : (p.write text).Aligned := by
  unfold Pen.write
  split
  · exact h
  · have hput : ∀ {q : Pen}, q.Aligned → q.pos.right text.length = Pos.ofText (q.out ++ text) := fun {q} hq => by
      rw [Pos.ofText_append htext, ← hq]
    unfold Aligned
    dsimp only
    split
    · exact hput h.space
    · exact hput h

theorem newline_not_mem_padded {g : Glue} (h : '\n' ∉ g.token.toList) :
    '\n' ∉ g.leading.toList ∧ '\n' ∉ g.padded.toList := by
  have hleading : '\n' ∉ g.leading.toList := by
    unfold Glue.leading
    split
    · rw [String.toList_append, List.mem_append, not_or]
      exact ⟨by decide, h⟩
    · exact h
  refine ⟨hleading, ?_⟩
  unfold Glue.padded
  split
  · rw [String.toList_append, List.mem_append, not_or]
    exact ⟨hleading, by decide⟩
  · exact hleading

theorem Aligned.stroke (h : p.Aligned) (hs : ∀ text, s.text? = some text → '\n' ∉ text.toList) :
    (p.stroke s).Aligned := by
  match s with
  | .goto none => exact h
  | .goto (some q) =>
    show (p.goto q).Aligned
    unfold Pen.goto
    dsimp only
    split
    · exact (h.newlines _).spaces _
    · exact h.newlines _
  | .write text => exact h.write (hs text rfl)
  | .sep next =>
    show (p.sep next).Aligned
    rcases sep_eq p next with hsep | hsep <;> rw [hsep]
    · exact h
    · exact h.space
  | .glue g prev next =>
    have htoken := hs g.token rfl
    obtain ⟨hleading, hpadded⟩ := newline_not_mem_padded htoken
    show (p.glue g prev next).Aligned
    unfold Pen.glue
    dsimp only
    split
    · exact h.write hpadded
    · split
      · split
        · exact (h.space.write htoken).spaces _
        · exact (h.write htoken).spaces _
      · split
        · exact h.write hleading
        · exact h.write hpadded

theorem Aligned.run (h : p.Aligned) (hes : ∀ s text, .stroke s ∈ es → s.text? = some text → '\n' ∉ text.toList) :
    (p.run es).Aligned := by
  induction es generalizing p with
  | nil => exact h
  | cons e es ih =>
    refine ih ?_ fun s text hs => hes s text (List.mem_cons_of_mem _ hs)
    match e with
    | .enter _ => exact h
    | .leave _ => exact h
    | .stroke s => exact h.stroke fun text => hes s text List.mem_cons_self

/-- **After any events that write no newline, the pen is at the end of its text.** -/
theorem aligned_after (hes : ∀ s text, .stroke s ∈ es → s.text? = some text → '\n' ∉ text.toList) :
    (after es).Aligned := Aligned.run rfl hes

/-! ## Ink -/

/-- **The pen wrote text**: it moved, and no node waits for its text any more. -/
structure Inked (p p' : Pen) : Prop where
  pos_lt : p.pos < p'.pos
  pending_eq : p'.pending = []

theorem inked_write (p : Pen) (h : text ≠ "") : Inked p (p.write text) where
  pos_lt := by
    rw [pos_write p h]
    exact Pos.lt_right _ (Nat.lt_of_lt_of_le (length_pos h) (Nat.le_add_left _ _))
  pending_eq := pending_write p h

theorem Inked.spaces (h : Inked p p') (n : Nat) : Inked p (p'.spaces n) where
  pos_lt := h.pos_lt.trans_le (Wrote.spaces p' n).pos_le
  pending_eq := by rw [pending_spaces, h.pending_eq]

theorem padded_ne {g : Glue} (h : g.token ≠ "") : g.leading ≠ "" ∧ g.padded ≠ "" := by
  have happend : ∀ {a b : String}, a ≠ "" ∨ b ≠ "" → a ++ b ≠ "" := fun h hab => by
    rw [String.append_eq_empty_iff] at hab
    exact h.elim (fun h => h hab.1) (fun h => h hab.2)
  have hleading : g.leading ≠ "" := by
    unfold Glue.leading
    split
    · exact happend (.inr h)
    · exact h
  refine ⟨hleading, ?_⟩
  unfold Glue.padded
  split
  · exact happend (.inl hleading)
  · exact hleading

theorem inked_stroke (p : Pen) (hs : s.text? = some text) (h : text ≠ "") : Inked p (p.stroke s) := by
  match s with
  | .goto _ => cases hs
  | .sep _ => cases hs
  | .write text => cases hs; exact inked_write p h
  | .glue g prev next =>
    cases hs
    obtain ⟨hleading, hpadded⟩ := padded_ne h
    show Inked p (p.glue g prev next)
    unfold Pen.glue
    dsimp only
    split
    · exact inked_write p hpadded
    · split
      · split
        · have hink := (inked_write p.space h).spaces
          exact ⟨(Wrote.space p).pos_le.trans_lt (hink _).pos_lt, (hink _).pending_eq⟩
        · exact (inked_write p h).spaces _
      · split
        · exact inked_write p hleading
        · exact inked_write p hpadded

theorem lt_run (p : Pen) (hs : .stroke s ∈ es) (htext : s.text? = some text) (hne : text ≠ "") :
    p.pos < (p.run es).pos := by
  obtain ⟨m, m', rfl⟩ := List.append_of_mem hs
  rw [run_append, run_cons]
  exact ((le_run p m).trans_lt (inked_stroke _ htext hne).pos_lt).trans_le (le_run _ m')

/-- **A node that writes text has a place in the layout**, and stops where the pen is when the node is left. -/
theorem exists_layout {front mid back : List Event} (hmid : .enter x ∉ mid) (hmid' : .leave x ∉ mid)
    (hback : .leave x ∉ back) (hs : .stroke s ∈ mid) (htext : s.text? = some text) (hne : text ≠ "") :
    ∃ q, (after (front ++ .enter x :: (mid ++ .leave x :: back))).layout.get? x =
      some ⟨q, (after (front ++ .enter x :: mid)).pos⟩ := by
  have hstart : ∃ q, (after (front ++ .enter x :: mid)).starts.get? x = some q := by
    rw [after_append, run_cons]
    have hwaits : x ∈ ((after front).step (.enter x)).pending := List.mem_cons_self
    rcases run_of_pending hwaits hmid hmid' with ⟨hpending, -⟩ | ⟨-, q, hq, -⟩
    · -- the stroke leaves no node waiting, and the node is not entered again
      obtain ⟨m, m', rfl⟩ := List.append_of_mem hs
      rw [List.mem_append, List.mem_cons, not_or, not_or] at hmid
      have hnot : x ∉ ((((after front).step (.enter x)).run m).stroke s).pending := by
        rw [(inked_stroke _ htext hne).pending_eq]
        exact List.not_mem_nil
      rw [run_append] at hpending
      exact absurd hpending (run_of_not_pending hnot hmid.2.2).1
    · exact ⟨q, hq⟩
  obtain ⟨q, hq⟩ := hstart
  have hsplit : front ++ .enter x :: (mid ++ .leave x :: back) =
    (front ++ .enter x :: mid) ++ .leave x :: back := by simp
  refine ⟨q, ?_⟩
  rw [hsplit, after_append, run_cons, layout_run hback]
  exact layout_leave hq

end Pen

/-! ## Tokens -/

theorem AssignOp.text_ne (op : AssignOp) : op.text ≠ "" := by cases op <;> decide

theorem BinaryOp.text_ne (op : BinaryOp) : op.text ≠ "" := by cases op <;> decide

/-- A stroke whose token, if it stands between two nodes, is some text. -/
@[simp]
abbrev Stroke.IsSolid : Stroke → Prop
  | glue g _ _ => g.token ≠ ""
  | _ => True

namespace Script

/-- **Every token between two nodes is some text.** -/
def Solid (items : List Item) : Prop := ∀ g prev next, .stroke (.glue g prev next) ∈ items → g.token ≠ ""

theorem solid_iff {items : List Item} : Solid items ↔ EveryStroke Stroke.IsSolid items := by
  constructor
  · intro h s hs
    cases s with
    | glue g prev next => exact h g prev next hs
    | _ => trivial
  · exact fun h g prev next hmem => h _ hmem

end Script

open Script in
theorem Node.solid_script (t : Tree) (n : Node) : Solid (n.script t) := by
  obtain ⟨parent, loc, kind⟩ := n
  rw [solid_iff]
  cases kind <;> simp only [Node.script] <;> (repeat' split) <;>
    simp [closing, ident, openingBrace, closingBrace, period, typeParams, Glue.spaced, AssignOp.text_ne,
      BinaryOp.text_ne]

/-! ## Rendering -/

namespace Pen

variable {p : Pen} {s : Stroke} {text : String} {es : List Event}

/-- A text that is written without regard to positions came from a stroke. -/
theorem exists_text_of_out (hp : p.out = "" ∧ p.last = none)
    (hes : ∀ g prev next, .stroke (.glue g prev next) ∈ es → g.token ≠ "")
    (h : (p.run (es.map Event.unplaced)).out ≠ "") : ∃ s text, .stroke s ∈ es ∧ s.text? = some text ∧ text ≠ "" := by
  induction es generalizing p with
  | nil => exact absurd hp.1 h
  | cons e es ih =>
    have hlater : (p.step e.unplaced).out = "" ∧ (p.step e.unplaced).last = none →
        ∃ s text, .stroke s ∈ e :: es ∧ s.text? = some text ∧ text ≠ "" := fun he => by
      obtain ⟨s, text, hs, htext⟩ := ih he (fun g prev next hg => hes g prev next (List.mem_cons_of_mem _ hg)) h
      exact ⟨s, text, List.mem_cons_of_mem _ hs, htext⟩
    cases e with
    | enter x => exact hlater hp
    | leave x => exact hlater hp
    | stroke s =>
      cases s with
      | goto q => exact hlater hp
      | sep next =>
        refine hlater ?_
        show (p.sep none).out = "" ∧ (p.sep none).last = none
        rw [sep_of_blank (.inl hp.2)]
        exact hp
      | glue g prev next => exact ⟨_, g.token, List.mem_cons_self, rfl, hes g prev next List.mem_cons_self⟩
      | write text =>
        by_cases htext : text = ""
        · refine hlater ?_
          show (p.write text).out = "" ∧ (p.write text).last = none
          rw [htext, write_empty]
          exact hp
        · exact ⟨_, text, List.mem_cons_self, rfl, htext⟩

theorem mem_out_of_stroke {c : Char} (p : Pen) (hs : s.text? = some text) (hc : c ∈ text.toList) :
    c ∈ (p.stroke s.unplaced).out.toList := by
  have hwrite : ∀ {text : String}, c ∈ text.toList → c ∈ (p.write text).out.toList := fun {text} hc => by
    obtain ⟨blank, h⟩ := out_write p text
    rw [h, String.toList_append]
    exact List.mem_append_right _ hc
  match s with
  | .goto _ => cases hs
  | .sep _ => cases hs
  | .write text => cases hs; exact hwrite hc
  | .glue g prev next =>
    cases hs
    refine hwrite ?_
    unfold Glue.padded Glue.leading
    split <;> split <;> simp [hc]

theorem not_mem_of_out {c : Char} (h : c ∉ (p.run (es.map Event.unplaced)).out.toList) (hs : .stroke s ∈ es)
    (htext : s.text? = some text) : c ∉ text.toList := fun hc => by
  obtain ⟨m, m', rfl⟩ := List.append_of_mem hs
  rw [List.map_append, List.map_cons, run_append] at h
  exact h ((grows_run ((p.run (m.map Event.unplaced)).stroke s.unplaced) _).subset (mem_out_of_stroke _ htext hc))

end Pen

end UniformAccess
