import UniformAccess.Proofs.Printing.Ink
import UniformAccess.Proofs.Printing.Mapped
/-!
# Printing a subtree that was moved

A subtree is written twice, the second time moved by some lines and columns and from a pen that was moved as far. Both
pens make the same strokes at positions that far from each other, so they stay that far from each other (`Carried`) and
write the same tokens (`Carried.run`). Only the blanks between them may be others: after a newline the columns of the
two pens begin at the same margin.
-/
namespace UniformAccess

variable {lines cols : Int}

/-! ## Positions -/

namespace Pos.MovedBy

variable {q q' r r' : Pos}

theorem right (h : q.MovedBy lines cols q') (n : Nat) : (q.right n).MovedBy lines cols (q'.right n) := by
  refine ⟨h.1, ?_⟩
  have := h.2
  rw [col_right, col_right]
  omega

theorem le_iff (hq : q.MovedBy lines cols q') (hr : r.MovedBy lines cols r') : q' ≤ r' ↔ q ≤ r := by
  obtain ⟨hql, hqc⟩ := hq
  obtain ⟨hrl, hrc⟩ := hr
  rw [le_def, le_def]
  omega

theorem lt_iff (hq : q.MovedBy lines cols q') (hr : r.MovedBy lines cols r') : q' < r' ↔ q < r := by
  rw [← not_le, ← not_le, hr.le_iff hq]

end Pos.MovedBy

/-- Both ends of the span moved by some lines and columns. -/
def Span.MovedBy (lines cols : Int) (s s' : Span) : Prop :=
  s.start.MovedBy lines cols s'.start ∧ s.stop.MovedBy lines cols s'.stop

/-- Two targets for the pens, the second one moved: both are on the page. -/
def Targets (lines cols : Int) : Option Pos → Option Pos → Prop :=
  Option.Rel fun q q' => q.MovedBy lines cols q' ∧ 1 ≤ q.col ∧ 1 ≤ q'.col

/-- **Every position in the node can be moved**, and leaves two columns before it both before and after. -/
def Node.HasMargin (lines cols : Int) (n : Node) : Prop :=
  ∀ l ∈ n.loc :: n.kind.innerLocs, ∀ q, l.start? = some q ∨ l.stop? = some q →
    q.CanMove lines cols ∧ 3 ≤ q.col ∧ 3 ≤ q.col + cols

instance (n : Node) : Decidable (n.HasMargin lines cols) :=
  decidable_of_iff (∀ l ∈ n.loc :: n.kind.innerLocs, ∀ q ∈ l.start?.toList ++ l.stop?.toList,
      ((1 ≤ q.line + lines ∧ q.line + lines ≤ Pos.maxCoordinate) ∧
        1 ≤ q.col + cols ∧ q.col + cols ≤ Pos.maxCoordinate) ∧ 3 ≤ q.col ∧ 3 ≤ q.col + cols)
    (forall₂_congr fun l _ => forall_congr' fun q => by
      rw [List.mem_append, Option.mem_toList, Option.mem_toList]
      rfl)

/-! ## Tokens -/

namespace Piece

/-- The chunks among some pieces, each with the position where it begins, if the first piece is written at `q`. -/
def tokens : Pos → List Piece → List (Pos × String)
  | _, [] => []
  | q, blank c :: ps => tokens (q.past c) ps
  | q, chunk text :: ps => (q, text) :: tokens (q.right text.length) ps

theorem tokens_of_blank {ps : List Piece} (h : ∀ piece ∈ ps, piece.isBlank = true) (q : Pos) : tokens q ps = [] := by
  induction ps generalizing q with
  | nil => rfl
  | cons piece ps ih =>
    cases piece with
    | blank c => exact ih (fun piece hpiece => h piece (List.mem_cons_of_mem _ hpiece)) _
    | chunk text => exact absurd (h _ List.mem_cons_self) Bool.false_ne_true

/-- Two tokens with the same text, the second one moved. -/
def TokenMoved (lines cols : Int) (a b : Pos × String) : Prop := a.1.MovedBy lines cols b.1 ∧ b.2 = a.2

end Piece

namespace Pen

open Piece

variable {p p' q q' r r' : Pen} {ps ps' ss ss' : List Piece} {s s' : Stroke} {text : String} {es es' : List Event}

theorem Draws.tokens_append (h : Draws p ps q) (ss : List Piece) :
    tokens p.pos (ps ++ ss) = tokens p.pos ps ++ tokens q.pos ss := by
  induction h with
  | nil => rfl
  | space _ ih => exact ih
  | newline _ ih => exact ih
  | chunk _ _ _ ih => exact congrArg (_ :: ·) ih

/-- **The tokens that a pen writes**, each with the position where it begins. -/
def tokens (p : Pen) (es : List Event) : List (Pos × String) := Piece.tokens p.pos (p.pieces es)

/-! ## A pen and another one carried along -/

/-- **The second pen is as far from the first as the subtree was moved**, and so is all it knows of the nodes. -/
structure Carried (lines cols : Int) (p p' : Pen) : Prop where
  pos : p.pos.MovedBy lines cols p'.pos
  last : p'.last = p.last ∨ Blank p.last ∧ Blank p'.last
  pending : p'.pending = p.pending
  starts : ∀ x, Option.Rel (Pos.MovedBy lines cols) (p.starts.get? x) (p'.starts.get? x)
  layout : ∀ x, Option.Rel (Span.MovedBy lines cols) (p.layout.get? x) (p'.layout.get? x)

/-- **Both pens write the same tokens**, and the second one is still carried along. -/
structure WriteAlike (lines cols : Int) (p p' : Pen) (ps ps' : List Piece) (q q' : Pen) : Prop where
  draws : Draws p ps q
  draws' : Draws p' ps' q'
  tokens : List.Forall₂ (TokenMoved lines cols) (Piece.tokens p.pos ps) (Piece.tokens p'.pos ps')
  carried : Carried lines cols q q'

theorem WriteAlike.trans (h : WriteAlike lines cols p p' ps ps' q q') (h' : WriteAlike lines cols q q' ss ss' r r') :
    WriteAlike lines cols p p' (ps ++ ss) (ps' ++ ss') r r' where
  draws := h.draws.append h'.draws
  draws' := h.draws'.append h'.draws'
  tokens := by
    rw [h.draws.tokens_append, h.draws'.tokens_append]
    exact List.rel_append h.tokens h'.tokens
  carried := h'.carried

namespace Carried

variable (h : Carried lines cols p p')
include h

theorem blank_iff : Blank p'.last ↔ Blank p.last := by
  rcases h.last with hl | ⟨hb, hb'⟩
  · rw [hl]
  · exact iff_of_true hb' hb

theorem joins_eq (text : String) : p'.joins text = p.joins text := by
  unfold joins
  rcases h.last with hl | ⟨hb, hb'⟩
  · rw [hl]
  · rw [hb.not_ident, hb'.not_ident]

/-! ### Nodes -/

theorem enter (x : NodeId) : Carried lines cols (p.enter x) (p'.enter x) :=
  { h with pending := congrArg (x :: ·) h.pending }

theorem leave (x : NodeId) : Carried lines cols (p.leave x) (p'.leave x) where
  pos := h.pos
  last := h.last
  pending := congrArg (List.filter (· ≠ x)) h.pending
  starts := h.starts
  layout y := by
    by_cases hyx : y = x
    · subst hyx
      have hrel := h.starts y
      cases hs : p.starts.get? y with
      | none =>
        cases hs' : p'.starts.get? y with
        | none =>
          rw [layout_leave_of_none hs, layout_leave_of_none hs']
          exact h.layout y
        | some q' => rw [hs, hs'] at hrel; cases hrel
      | some q =>
        cases hs' : p'.starts.get? y with
        | none => rw [hs, hs'] at hrel; cases hrel
        | some q' =>
          rw [hs, hs'] at hrel
          cases hrel with
          | some hq =>
            rw [layout_leave hs, layout_leave hs']
            exact .some ⟨hq, h.pos⟩
    · have hne : Event.leave x ≠ .leave y := fun h => hyx (Event.leave.inj h).symm
      have hl : (p.leave x).layout.get? y = _ := layout_step_of_ne (p := p) hne
      have hl' : (p'.leave x).layout.get? y = _ := layout_step_of_ne (p := p') hne
      rw [hl, hl']
      exact h.layout y

/-! ### Blanks -/

/-- Blanks concern no node. -/
theorem blanks (hd : Draws p ps q) (hd' : Draws p' ps' q') (hps : ∀ piece ∈ ps, piece.isBlank = true)
    (hps' : ∀ piece ∈ ps', piece.isBlank = true) (hpos : q.pos.MovedBy lines cols q'.pos)
    (hlast : q'.last = q.last ∨ Blank q.last ∧ Blank q'.last) : WriteAlike lines cols p p' ps ps' q q' := by
  have hink : ∀ {a : Pos} {ps : List Piece}, (∀ piece ∈ ps, piece.isBlank = true) → inkAt a ps = none := fun hps => by
    rw [inkAt_eq, if_pos (List.all_eq_true.2 hps)]
  obtain ⟨hpending, hstarts⟩ := hd.begun.1 (hink hps)
  obtain ⟨hpending', hstarts'⟩ := hd'.begun.1 (hink hps')
  refine ⟨hd, hd', by rw [tokens_of_blank hps, tokens_of_blank hps']; exact .nil, hpos, hlast, ?_, fun x => ?_,
    fun x => ?_⟩
  · rw [hpending, hpending', h.pending]
  · rw [hstarts, hstarts']
    exact h.starts x
  · rw [hd.layout_eq, hd'.layout_eq]
    exact h.layout x

theorem still : WriteAlike lines cols p p' [] [] p p' := ⟨.nil, .nil, .nil, h⟩

theorem space : WriteAlike lines cols p p' [.blank ' '] [.blank ' '] p.space p'.space :=
  h.blanks (.space .nil) (.space .nil) (by simp [isBlank]) (by simp [isBlank]) (h.pos.right 1) (.inl rfl)

theorem spaces (n : Nat) : WriteAlike lines cols p p' (List.replicate n (.blank ' ')) (List.replicate n (.blank ' '))
    (p.spaces n) (p'.spaces n) := by
  refine h.blanks (draws_spaces p n) (draws_spaces p' n) (by simp [isBlank]) (by simp [isBlank]) ?_ ?_
  · rw [pos_spaces, pos_spaces]
    exact h.pos.right n
  · cases n with
    | zero => exact h.last
    | succ n => exact .inl (by rw [last_spaces p n.succ_pos, last_spaces p' n.succ_pos])

theorem goto {a a' : Pos} (ha : a.MovedBy lines cols a') (hcol : 1 ≤ a.col) (hcol' : 1 ≤ a'.col) :
    WriteAlike lines cols p p' (p.gotoPieces a) (p'.gotoPieces a') (p.goto a) (p'.goto a') := by
  have hblank : ∀ (p : Pen) (a : Pos), ∀ piece ∈ p.gotoPieces a, piece.isBlank = true := fun p a piece hpiece => by
    unfold gotoPieces at hpiece
    rcases List.mem_append.1 hpiece with hpiece | hpiece
    · rw [List.eq_of_mem_replicate hpiece]
      rfl
    · split at hpiece
      · rw [List.eq_of_mem_replicate hpiece]
        rfl
      · cases hpiece
  refine h.blanks (draws_stroke p (.goto (some a))) (draws_stroke p' (.goto (some a'))) (hblank p a)
    (hblank p' a') ?_ ?_
  all_goals rcases lt_or_ge p.pos a with hlt | hle
  · rw [(goto_of_lt hlt hcol).1, (goto_of_lt ((h.pos.lt_iff ha).2 hlt) hcol').1]
    exact ha
  · rw [goto_of_le hle, goto_of_le ((ha.le_iff h.pos).2 hle)]
    exact h.pos
  · exact .inr ⟨(goto_of_lt hlt hcol).2, (goto_of_lt ((h.pos.lt_iff ha).2 hlt) hcol').2⟩
  · rw [goto_of_le hle, goto_of_le ((ha.le_iff h.pos).2 hle)]
    exact h.last

theorem sep {next next' : Option Pos} (hn : Targets lines cols next next') :
    WriteAlike lines cols p p' (p.sepPieces next) (p'.sepPieces next') (p.sep next) (p'.sep next') := by
  have hany : next'.any (p'.pos ≤ ·) = next.any (p.pos ≤ ·) := by
    cases hn with
    | none => rfl
    | some hq => exact decide_eq_decide.2 (h.pos.le_iff hq.1)
  have hblank := h.blank_iff
  unfold Blank at hblank
  unfold sepPieces Pen.sep
  simp only [hblank, hany]
  split
  · exact h.still
  · split
    · exact h.still
    · exact h.space

/-! ### Text -/

theorem put (hne : text ≠ "") (hjoins : p.joins text = false) :
    WriteAlike lines cols p p' [.chunk text] [.chunk text] (p.put text) (p'.put text) := by
  refine ⟨.chunk hne hjoins .nil, .chunk hne ((h.joins_eq text).trans hjoins) .nil, .cons ⟨h.pos, rfl⟩ .nil,
    h.pos.right _, .inl rfl, rfl, fun x => ?_, h.layout⟩
  show Option.Rel _ ((p.starts.insertAll p.pending p.pos).get? x) ((p'.starts.insertAll p'.pending p'.pos).get? x)
  rw [NodeMap.get?_insertAll, NodeMap.get?_insertAll, h.pending]
  split
  · exact .some h.pos
  · exact h.starts x

theorem write (text : String) :
    WriteAlike lines cols p p' (p.writePieces text) (p'.writePieces text) (p.write text) (p'.write text) := by
  unfold writePieces
  by_cases hne : text = ""
  · rw [if_pos hne, if_pos hne, hne, write_empty, write_empty]
    exact h.still
  · rw [if_neg hne, if_neg hne, write_eq_put p hne, write_eq_put p' hne, h.joins_eq text]
    split
    · refine h.space.trans (h.space.carried.put hne ?_)
      unfold joins
      rw [Blank.not_ident (.inr (.inl (last_space p)))]
      rfl
    · rename_i hjoins
      exact h.put hne (Bool.eq_false_iff.2 hjoins)

theorem glue (g : Glue) {prev prev' next next' : Option Pos} (hp : Option.Rel (Pos.MovedBy lines cols) prev prev')
    (hn : Targets lines cols next next') : WriteAlike lines cols p p' (p.gluePieces g prev next)
      (p'.gluePieces g prev' next') (p.glue g prev next) (p'.glue g prev' next') := by
  have hprev : (prev.getD p.pos).MovedBy lines cols (prev'.getD p'.pos) := by
    cases hp with
    | none => exact h.pos
    | some hq => exact hq
  unfold gluePieces Pen.glue
  generalize prev.getD p.pos = a at hprev
  generalize prev'.getD p'.pos = a' at hprev
  cases hn with
  | none => exact h.write _
  | @some b b' hb =>
    have hb := hb.1
    -- what the pens decide by is as far apart as the pens are
    have hfits : (b'.line = a'.line ∧ a'.col + g.token.length ≤ b'.col) ↔
        (b.line = a.line ∧ a.col + g.token.length ≤ b.col) := by
      have h₁ := hprev.1
      have h₂ := hprev.2
      have h₃ := hb.1
      have h₄ := hb.2
      omega
    have hgap : b'.col - a'.col - g.token.length = b.col - a.col - g.token.length := by
      have h₂ := hprev.2
      have h₄ := hb.2
      omega
    have hlater : (a'.line < b'.line ∧ p'.pos < b') ↔ (a.line < b.line ∧ p.pos < b) := by
      refine and_congr ?_ (h.pos.lt_iff hb)
      have h₁ := hprev.1
      have h₃ := hb.1
      omega
    dsimp only
    simp only [hfits, hgap, hlater]
    split
    · split
      · exact (h.space.trans (h.space.carried.write _)).trans ((h.space.carried.write _).carried.spaces _)
      · exact (h.write _).trans ((h.write _).carried.spaces _)
    · split
      · exact h.write _
      · exact h.write _

/-- **Strokes at positions that were moved keep the pens as far apart as they are.** -/
theorem stroke (hs : s.Like (Targets lines cols) (Option.Rel (Pos.MovedBy lines cols)) s') :
    WriteAlike lines cols p p' (p.strokePieces s) (p'.strokePieces s') (p.stroke s) (p'.stroke s') := by
  cases s <;> cases s' <;> first | exact hs.elim | skip
  · cases hs with
    | none => exact h.still
    | some hq => exact h.goto hq.1 hq.2.1 hq.2.2
  · obtain rfl : _ = _ := hs
    exact h.write _
  · exact h.sep hs
  · obtain ⟨rfl, hprev, hnext⟩ := hs
    exact h.glue _ hprev hnext

end Carried

end Pen

/-! ## Runs -/

/-- Two events that are the same but for positions. -/
def Event.Like (A B : Option Pos → Option Pos → Prop) : Event → Event → Prop
  | stroke s, stroke s' => s.Like A B s'
  | enter x, enter y => x = y
  | leave x, leave y => x = y
  | _, _ => False

/-- **Pens that go through the same events, with the positions moved, write the same tokens** and stay apart. -/
theorem Pen.Carried.run {p p' : Pen} {es es' : List Event} (h : Carried lines cols p p')
    (hes : List.Forall₂ (Event.Like (Targets lines cols) (Option.Rel (Pos.MovedBy lines cols))) es es') :
    List.Forall₂ (Piece.TokenMoved lines cols) (p.tokens es) (p'.tokens es') ∧
    Carried lines cols (p.run es) (p'.run es') := by
  induction hes generalizing p p' with
  | nil => exact ⟨.nil, h⟩
  | @cons e e' es es' he _ ih =>
    cases e <;> cases e' <;> first | exact he.elim | skip
    · have hs := h.stroke he
      obtain ⟨htokens, hrun⟩ := ih hs.carried
      refine ⟨?_, hrun⟩
      show List.Forall₂ _ (Piece.tokens p.pos (p.strokePieces _ ++ _)) (Piece.tokens p'.pos (p'.strokePieces _ ++ _))
      rw [hs.draws.tokens_append, hs.draws'.tokens_append]
      exact List.rel_append hs.tokens htokens
    · obtain rfl : _ = _ := he
      exact ih (h.enter _)
    · obtain rfl : _ = _ := he
      exact ih (h.leave _)

/-! ## Scripts -/

namespace Loc

variable {l : Loc} (h : ∀ q, l.start? = some q ∨ l.stop? = some q → q.CanMove lines cols ∧ 3 ≤ q.col ∧ 3 ≤ q.col + cols)
include h

theorem targets_start? : Targets lines cols l.start? (l.shifted lines cols).start? := by
  cases l with
  | synthetic => exact .none
  | span s =>
    obtain ⟨hmove, hcol, hcol'⟩ := h s.start (.inl rfl)
    have hc : ((s.start.shifted lines cols).col : Int) = s.start.col + cols := hmove.movedBy.2
    refine .some ⟨hmove.movedBy, ?_, ?_⟩
    · show 1 ≤ s.start.col
      omega
    · show 1 ≤ (s.start.shifted lines cols).col
      omega

theorem movedBy_stop? : Option.Rel (Pos.MovedBy lines cols) l.stop? (l.shifted lines cols).stop? := by
  cases l with
  | synthetic => exact .none
  | span s => exact .some (h s.stop (.inr rfl)).1.movedBy

theorem targets_closingPos {text : String} (htext : text.length ≤ 2) :
    Targets lines cols (Script.closingPos text l.stop?) (Script.closingPos text (l.shifted lines cols).stop?) := by
  cases l with
  | synthetic => exact .none
  | span s =>
    obtain ⟨hmove, hcol, hcol'⟩ := h s.stop (.inr rfl)
    have hc : ((s.stop.shifted lines cols).col : Int) = s.stop.col + cols := hmove.movedBy.2
    have hstop : (Loc.shifted (.span s) lines cols).stop? = some (s.stop.shifted lines cols) := rfl
    rw [hstop, stop?_span]
    refine .some ⟨⟨hmove.movedBy.1, ?_⟩, ?_, ?_⟩ <;> dsimp only <;> omega

theorem targets_periodPos : Targets lines cols (Script.periodPos l) (Script.periodPos (l.shifted lines cols)) := by
  cases l with
  | synthetic => exact .none
  | span s =>
    obtain ⟨hmove, hcol, hcol'⟩ := h s.start (.inl rfl)
    have hc : ((s.start.shifted lines cols).col : Int) = s.start.col + cols := hmove.movedBy.2
    have hstart : (Loc.shifted (.span s) lines cols).start? = some (s.start.shifted lines cols) := rfl
    have hperiod : ∀ {q : Pos}, 1 < q.col → (((some q).filter (1 < ·.col)).map fun p => { p with col := p.col - 1 }) =
        some { q with col := q.col - 1 } := fun hq => by simp [Option.filter, hq]
    unfold Script.periodPos
    rw [hstart, start?_span, hperiod (by omega), hperiod (by omega)]
    refine .some ⟨⟨hmove.movedBy.1, ?_⟩, ?_, ?_⟩ <;> dsimp only <;> omega

theorem movedBy_keywordStop (word : String) : Option.Rel (Pos.MovedBy lines cols) (Script.keywordStop l word)
    (Script.keywordStop (l.shifted lines cols) word) := by
  cases l with
  | synthetic => exact .none
  | span s => exact .some ((h s.start (.inl rfl)).1.movedBy.right _)

end Loc

namespace Tree

variable {t t' : Tree} {s x : NodeId} {node : Node}

/-- **What lies from a node down is a tree**: no node lies below itself, and none stands in two slots. -/
structure IsTreeFrom (t : Tree) (s : NodeId) : Prop where
  acyclic : t.AcyclicBelow s
  unshared : (t.descendants s).Nodup

theorem IsTreeFrom.get?_shift (h : t.IsTreeFrom s) (hx : t.Reaches s x) :
    (t.shift s lines cols).get? x = (t.get? x).map (Node.shifted lines cols) := by
  unfold shift
  rw [get?_modifies _ t h.unshared]
  split
  · rfl
  · rename_i hnot
    cases hnode : t.get? x with
    | none => rfl
    | some node => exact absurd (h.acyclic.mem_descendants.2 ⟨contains_iff.2 ⟨node, hnode⟩, hx⟩) hnot

section

-- `t'` has the nodes from `s` down moved
variable (hmoved : ∀ x, t.Reaches s x → t'.get? x = (t.get? x).map (Node.shifted lines cols))
  (hmargin : ∀ x node, t.Reaches s x → t.get? x = some node → node.HasMargin lines cols)
include hmoved hmargin

theorem targets_start? (hx : t.Reaches s x) : Targets lines cols (t.start? x) (t'.start? x) := by
  unfold start?
  rw [hmoved x hx]
  cases hnode : t.get? x with
  | none => exact .none
  | some node => exact Loc.targets_start? (hmargin x node hx hnode _ List.mem_cons_self)

theorem movedBy_stop? (hx : t.Reaches s x) : Option.Rel (Pos.MovedBy lines cols) (t.stop? x) (t'.stop? x) := by
  unfold stop?
  rw [hmoved x hx]
  cases hnode : t.get? x with
  | none => exact .none
  | some node => exact Loc.movedBy_stop? (hmargin x node hx hnode _ List.mem_cons_self)

/-- **The script of a node that was moved is the same**, at positions that were moved. -/
theorem script_shifted (hx : t.Reaches s x) (hnode : t.get? x = some node) :
    Script.Likes (Targets lines cols) (Option.Rel (Pos.MovedBy lines cols)) (fun c c' => c = c' ∧ t.Reaches s c)
      (node.script t) ((node.shifted lines cols).script t') := by
  have hnodeMargin := hmargin x node hx hnode
  have hinner : ∀ {i : Nat} {l : Loc}, node.kind.innerLocs[i]? = some l →
      ∀ q : Pos, l.start? = some q ∨ l.stop? = some q →
      q.CanMove lines cols ∧ 3 ≤ q.col ∧ 3 ≤ q.col + cols := fun hl =>
    hnodeMargin _ (List.mem_cons_of_mem _ (List.mem_of_getElem? hl))
  have hslots : Slot.Related (fun c c' => c = c' ∧ t.Reaches s c) node.kind.slots node.kind.slots :=
    Slot.related_refl fun c hc => ⟨rfl, Relation.ReflTransGen.tail hx (by
      show c ∈ t.children x
      rwa [children_of_get? hnode])⟩
  have hstop : ∀ c c', c = c' ∧ t.Reaches s c → Option.Rel (Pos.MovedBy lines cols) (t.stop? c) (t'.stop? c') := by
    rintro c _ ⟨rfl, hc⟩
    exact movedBy_stop? hmoved hmargin hc
  refine Node.script_like (f := fun _ l => l.shifted lines cols)
    { kind_eq := by rw [Kind.withSlots_slots]; rfl
      related := hslots
      start := ?_
      stop := hstop
      no_next := .none
      no_prev := .none
      inner := fun hl =>
        ⟨Loc.targets_start? (hinner hl), Loc.movedBy_stop? (hinner hl), Loc.targets_periodPos (hinner hl)⟩
      closing := fun _ htext =>
        Loc.targets_closingPos (hnodeMargin _ List.mem_cons_self) (Kind.length_le_of_closer? htext)
      keyword := fun word _ _ => Loc.movedBy_keywordStop (hnodeMargin _ List.mem_cons_self) word
      paren := fun _ c _ c' _ hc => ?_ }
  · rintro c _ ⟨rfl, hc⟩
    exact targets_start? hmoved hmargin hc
  · have hq := hstop c c' hc
    generalize t.stop? c = q, t'.stop? c' = q' at hq
    cases hq with
    | none => exact .none
    | some hq => exact .some (hq.right 1)

/-- **What happens while the subtree is written is the same**, at positions that were moved. -/
theorem eventsTo_shifted (depth : Nat) (hx : t.Reaches s x) :
    List.Forall₂ (Event.Like (Targets lines cols) (Option.Rel (Pos.MovedBy lines cols))) (t.eventsTo depth x)
      (t'.eventsTo depth x) := by
  induction depth generalizing x with
  | zero => exact .nil
  | succ depth ih =>
    unfold eventsTo
    rw [hmoved x hx]
    cases hnode : t.get? x with
    | none => exact .nil
    | some node =>
      have hscript := script_shifted hmoved hmargin hx hnode
      have hstart := Loc.targets_start? (hmargin x node hx hnode _ List.mem_cons_self)
      have henter : Event.Like (Targets lines cols) (Option.Rel (Pos.MovedBy lines cols)) (.enter x) (.enter x) := rfl
      have hleave : Event.Like (Targets lines cols) (Option.Rel (Pos.MovedBy lines cols)) (.leave x) (.leave x) := rfl
      refine .cons hstart (.cons henter (List.rel_append (List.rel_flatMap hscript fun item item' hitem => ?_)
        (.cons hleave .nil)))
      cases item <;> cases item' <;> first | exact hitem.elim | skip
      · exact .cons hitem .nil
      · obtain ⟨rfl, hc⟩ := hitem
        exact ih hc

end

/-- **Printing commutes with moving a subtree.** Written from a pen that was moved as far, a subtree that was moved
gives the same tokens, each of them moved. The pen ends up moved, and so is the place of every node of the subtree. The
positions have to leave room for the move, and two columns before them for a closing token. -/
theorem print_shift (h : t.IsTreeFrom s)
    (hmargin : ∀ x node, t.Reaches s x → t.get? x = some node → node.HasMargin lines cols) {c c' : Pos}
    (hc : c.MovedBy lines cols c') (out out' : String) (last : Option Char) :
    let p : Pen := { out, pos := c, last }
    let p' : Pen := { out := out', pos := c', last }
    let es := t.events s
    let es' := (t.shift s lines cols).events s
    List.Forall₂ (Piece.TokenMoved lines cols) (p.tokens es) (p'.tokens es') ∧
      (p.run es).pos.MovedBy lines cols (p'.run es').pos ∧
      ∀ x, t.Reaches s x →
        Option.Rel (Span.MovedBy lines cols) ((p.run es).layout.get? x) ((p'.run es').layout.get? x) := by
  intro p p' es es'
  have hcarried : Pen.Carried lines cols p p' := ⟨hc, .inl rfl, rfl, fun _ => .none, fun _ => .none⟩
  have hheight : (t.shift s lines cols).height = t.height := (Moved.shift t s lines cols).size_eq
  have hes : List.Forall₂ (Event.Like (Targets lines cols) (Option.Rel (Pos.MovedBy lines cols))) es es' := by
    show List.Forall₂ _ (t.eventsTo t.height s) ((t.shift s lines cols).eventsTo (t.shift s lines cols).height s)
    rw [hheight]
    exact eventsTo_shifted (fun x hx => h.get?_shift hx) hmargin _ .refl
  obtain ⟨htokens, hrun⟩ := hcarried.run hes
  exact ⟨htokens, hrun.pos, fun x _ => hrun.layout x⟩

/-- The block of the counter, moved down by three lines and to the left by so much that it starts in
the third column. -/
theorem print_shift_counter :
    let t := Lowering.counter
    let p : Pen := { pos := ⟨1, 41⟩, last := some '\x7d' }
    let p' : Pen := { pos := ⟨4, 3⟩, last := some '\x7d' }
    t.IsTreeFrom ⟨5⟩ ∧ (∀ x node, t.Reaches ⟨5⟩ x → t.get? x = some node → node.HasMargin 3 (-38)) ∧
      List.Forall₂ (Piece.TokenMoved 3 (-38)) (p.tokens (t.events ⟨5⟩)) (p'.tokens ((t.shift ⟨5⟩ 3 (-38)).events ⟨5⟩)) ∧
      (p.run (t.events ⟨5⟩)).pos.MovedBy 3 (-38) (p'.run ((t.shift ⟨5⟩ 3 (-38)).events ⟨5⟩)).pos ∧
      Option.Rel (Span.MovedBy 3 (-38)) ((p.run (t.events ⟨5⟩)).layout.get? ⟨9⟩)
        ((p'.run ((t.shift ⟨5⟩ 3 (-38)).events ⟨5⟩)).layout.get? ⟨9⟩) := by
  intro t p p'
  have hf := Lowering.proper_counter.forest
  have htree : t.IsTreeFrom ⟨5⟩ := ⟨fun x _ => hf.acyclic x, hf.nodup_descendants _⟩
  have hmem : ∀ {x}, x ∈ t.descendants ⟨5⟩ ↔ t.Reaches ⟨5⟩ x := hf.mem_descendants (by decide)
  have hmargin : ∀ x node, t.Reaches ⟨5⟩ x → t.get? x = some node → node.HasMargin 3 (-38) := by
    have hall : ∀ x ∈ t.descendants ⟨5⟩, ∀ node ∈ t.get? x, node.HasMargin 3 (-38) := by decide
    exact fun x node hx => hall x (hmem.2 hx) node
  have hcursor : Pos.MovedBy 3 (-38) ⟨1, 41⟩ ⟨4, 3⟩ := ⟨rfl, rfl⟩
  obtain ⟨htokens, hpos, hlayout⟩ := print_shift htree hmargin hcursor "" "" (some '\x7d')
  exact ⟨htree, hmargin, htokens, hpos, hlayout ⟨9⟩ (hmem.1 (by decide))⟩

end Tree

end UniformAccess
