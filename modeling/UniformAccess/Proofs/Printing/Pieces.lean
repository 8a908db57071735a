import UniformAccess.Proofs.Printing.Text
/-!
# What the pen writes

Whatever a stroke does comes down to blanks and chunks of text, one after the other (`draws_stroke`): a blank is a space
or a newline that the pen adds on its own, a chunk is a text that it has to write. So the text is that of the pieces
(`out_run`), two chunks never put two identifier characters next to each other (`not_joined`), and the nodes that wait
begin where the first chunk begins (`starts_run`).
-/
namespace UniformAccess

/-- What the pen puts on the page at a time. -/
inductive Piece where
  | blank (c : Char)
  | chunk (text : String)
deriving DecidableEq, Repr

namespace Piece

def isBlank : Piece → Bool
  | blank _ => true
  | chunk _ => false

def text : Piece → String
  | blank c => String.singleton c
  | chunk text => text

/-- The text of some pieces. -/
def textOf : List Piece → String
  | [] => ""
  | piece :: ps => piece.text ++ textOf ps

@[simp]
theorem textOf_nil : textOf [] = "" := rfl

@[simp]
theorem textOf_cons (piece : Piece) (ps : List Piece) : textOf (piece :: ps) = piece.text ++ textOf ps := rfl

@[simp]
theorem textOf_append (ps ps' : List Piece) : textOf (ps ++ ps') = textOf ps ++ textOf ps' := by
  induction ps with
  | nil => exact (String.empty_append).symm
  | cons piece ps ih => rw [List.cons_append, textOf_cons, ih, textOf_cons, String.append_assoc]

theorem foldl_past_blank (p : Pos) (c : Char) : (blank c).text.toList.foldl Pos.past p = p.past c := by
  rw [text, String.toList_singleton]
  rfl

/-- Where the first chunk begins, if the first piece is written at `p`. -/
def inkAt (p : Pos) : List Piece → Option Pos
  | [] => none
  | blank c :: ps => inkAt (p.past c) ps
  | chunk _ :: _ => some p

/-- The pieces before the first chunk. -/
def lead (ps : List Piece) : List Piece := ps.takeWhile isBlank

theorem inkAt_append (p : Pos) (ps ps' : List Piece) : inkAt p (ps ++ ps') =
    (inkAt p ps).or (inkAt ((textOf ps).toList.foldl Pos.past p) ps') := by
  induction ps generalizing p with
  | nil => rfl
  | cons piece ps ih =>
    cases piece with
    | blank c =>
      rw [List.cons_append, inkAt, inkAt, ih, textOf_cons, String.toList_append, List.foldl_append, foldl_past_blank]
    | chunk text => rfl

/-- **The first chunk begins where the blanks before it stop.** -/
theorem inkAt_eq (p : Pos) (ps : List Piece) : inkAt p ps =
    if ps.all isBlank then none else some ((textOf (lead ps)).toList.foldl Pos.past p) := by
  induction ps generalizing p with
  | nil => rfl
  | cons piece ps ih =>
    cases piece with
    | chunk text => rfl
    | blank c =>
      have hlead : lead (blank c :: ps) = blank c :: lead ps := rfl
      rw [inkAt, ih, hlead, textOf_cons, String.toList_append, List.foldl_append, foldl_past_blank]
      rfl

end Piece

namespace Pen

open Piece

variable {p q r : Pen} {ps ps' : List Piece} {text : String} {x : NodeId} {es es' : List Event}

/-! ## Drawing pieces -/

/-- Writes a text right where the pen is. -/
def put (p : Pen) (text : String) : Pen :=
  { p with
    out := p.out ++ text, pos := p.pos.right text.length, last := text.toList.getLast?,
    pending := [], starts := p.starts.insertAll p.pending p.pos }

theorem write_eq_put (p : Pen) (h : text ≠ "") :
    p.write text = (if p.joins text then p.space else p).put text := by
  unfold write
  split
  · rename_i hnil
    exact absurd (String.toList_eq_nil_iff.1 hnil) h
  · rename_i first rest hcons
    have hjoins : (p.last.any isIdentChar && isIdentChar first) = p.joins text := by
      unfold joins
      rw [hcons]
      rfl
    rw [hjoins]
    split <;> rfl

/-- **The pen goes over the pieces.** It writes a chunk only where it does not run together with the last word. -/
inductive Draws : Pen → List Piece → Pen → Prop
  | nil {p : Pen} : Draws p [] p
  | space {p q : Pen} {ps : List Piece} : Draws p.space ps q → Draws p (.blank ' ' :: ps) q
  | newline {p q : Pen} {ps : List Piece} : Draws p.newline ps q → Draws p (.blank '\n' :: ps) q
  | chunk {p q : Pen} {text : String} {ps : List Piece} : text ≠ "" → p.joins text = false → Draws (p.put text) ps q →
      Draws p (.chunk text :: ps) q

theorem le_newline (p : Pen) : p.pos ≤ p.newline.pos := .inl (Nat.lt_succ_self _)

namespace Draws

theorem append (h : Draws p ps q) (h' : Draws q ps' r) : Draws p (ps ++ ps') r := by
  induction h with
  | nil => exact h'
  | space _ ih => exact .space (ih h')
  | newline _ ih => exact .newline (ih h')
  | chunk hne hjoins _ ih => exact .chunk hne hjoins (ih h')

/-- **The text grows by that of the pieces.** -/
theorem out_eq (h : Draws p ps q) : q.out = p.out ++ textOf ps := by
  induction h with
  | nil => exact String.append_empty.symm
  | space _ ih => exact ih.trans (String.append_assoc ..)
  | newline _ ih => exact ih.trans (String.append_assoc ..)
  | chunk _ _ _ ih => exact ih.trans (String.append_assoc ..)

theorem layout_eq (h : Draws p ps q) : q.layout = p.layout := by
  induction h with
  | nil => rfl
  | space _ ih => exact ih
  | newline _ ih => exact ih
  | chunk _ _ _ ih => exact ih

/-- The pen keeps the last character of its text. -/
theorem last_eq (h : Draws p ps q) (hp : p.last = p.out.toList.getLast?) : q.last = q.out.toList.getLast? := by
  induction h with
  | nil => exact hp
  | @space p q ps _ ih =>
    refine ih ?_
    show some ' ' = (p.out ++ " ").toList.getLast?
    rw [String.toList_append]
    exact List.getLast?_concat.symm
  | @newline p q ps _ ih =>
    refine ih ?_
    show some '\n' = (p.out ++ "\n").toList.getLast?
    rw [String.toList_append]
    exact List.getLast?_concat.symm
  | @chunk p q text ps hne _ _ ih =>
    refine ih ?_
    show text.toList.getLast? = (p.out ++ text).toList.getLast?
    have hnil : text.toList ≠ [] := fun hnil => hne (String.toList_eq_nil_iff.1 hnil)
    rw [String.toList_append, List.getLast?_append_of_ne_nil _ hnil]

/-- **The nodes that wait begin with the first chunk**, if there is one. -/
theorem begun (h : Draws p ps q) :
    (inkAt p.pos ps = none → q.pending = p.pending ∧ q.starts = p.starts) ∧
      ∀ a, inkAt p.pos ps = some a → q.pending = [] ∧ q.starts = p.starts.insertAll p.pending a := by
  induction h with
  | nil => exact ⟨fun _ => ⟨rfl, rfl⟩, fun a ha => absurd ha nofun⟩
  | space _ ih => exact ih
  | newline _ ih => exact ih
  | @chunk p q text ps _ _ _ ih =>
    refine ⟨fun h => absurd h nofun, fun a ha => ?_⟩
    obtain rfl : p.pos = a := Option.some.inj ha
    -- nothing waits any more, so later chunks begin no node
    cases hink : inkAt (p.put text).pos ps with
    | none => exact ih.1 hink
    | some b => exact ih.2 b hink

theorem pos_le (h : Draws p ps q) : p.pos ≤ q.pos := by
  induction h with
  | nil => exact le_refl _
  | space _ ih => exact (Pos.le_right _ 1).trans ih
  | newline _ ih => exact (le_newline _).trans ih
  | chunk _ _ _ ih => exact (Pos.le_right _ _).trans ih

theorem ink_bounds {a : Pos} (h : Draws p ps q) (ha : inkAt p.pos ps = some a) : p.pos ≤ a ∧ a < q.pos := by
  induction h with
  | nil => cases ha
  | space _ ih => exact ⟨(Pos.le_right _ 1).trans (ih ha).1, (ih ha).2⟩
  | newline _ ih => exact ⟨(le_newline _).trans (ih ha).1, (ih ha).2⟩
  | @chunk p q text ps hne _ hrest ih =>
    obtain rfl : p.pos = a := Option.some.inj ha
    exact ⟨le_refl _, (Pos.lt_right _ (length_pos hne)).trans_le hrest.pos_le⟩

theorem chunk_ne (h : Draws p ps q) (hmem : .chunk text ∈ ps) : text ≠ "" := by
  induction h with
  | nil => cases hmem
  | space _ ih => exact ih ((List.mem_cons.1 hmem).resolve_left nofun)
  | newline _ ih => exact ih ((List.mem_cons.1 hmem).resolve_left nofun)
  | chunk hne _ _ ih =>
    rcases List.mem_cons.1 hmem with heq | hmem
    · cases heq
      exact hne
    · exact ih hmem

/-- **A chunk does not run together with the text before it.** -/
theorem apart {front back : List Piece} (h : Draws p ps q) (hp : p.last = p.out.toList.getLast?)
    (hps : ps = front ++ .chunk text :: back) :
    ((p.out ++ textOf front).toList.getLast?.any isIdentChar && text.toList.head?.any isIdentChar) = false := by
  induction h generalizing front with
  | nil => exact absurd hps.symm (by simp)
  | @space p q ps hrest ih =>
    cases front with
    | nil => cases hps
    | cons piece front =>
      obtain ⟨rfl, hrest'⟩ := List.cons.inj hps
      rw [textOf_cons, ← String.append_assoc]
      exact ih ((Draws.space .nil).last_eq hp) hrest'
  | @newline p q ps hrest ih =>
    cases front with
    | nil => cases hps
    | cons piece front =>
      obtain ⟨rfl, hrest'⟩ := List.cons.inj hps
      rw [textOf_cons, ← String.append_assoc]
      exact ih ((Draws.newline .nil).last_eq hp) hrest'
  | @chunk p q text' ps hne hjoins hrest ih =>
    cases front with
    | nil =>
      cases hps
      rw [textOf_nil, String.append_empty, ← hp]
      exact hjoins
    | cons piece front =>
      obtain ⟨rfl, hrest'⟩ := List.cons.inj hps
      rw [textOf_cons, ← String.append_assoc]
      exact ih ((Draws.chunk hne hjoins .nil).last_eq hp) hrest'

/-- The pen moves as far as the text goes, if no chunk brings a newline of its own. -/
theorem pos_eq (h : Draws p ps q) (hlines : ∀ text, .chunk text ∈ ps → '\n' ∉ text.toList) :
    q.pos = (textOf ps).toList.foldl Pos.past p.pos := by
  induction h with
  | nil => rfl
  | space _ ih =>
    rw [ih fun text ht => hlines text (List.mem_cons_of_mem _ ht), textOf_cons, String.toList_append, List.foldl_append,
      foldl_past_blank]
    rfl
  | newline _ ih =>
    rw [ih fun text ht => hlines text (List.mem_cons_of_mem _ ht), textOf_cons, String.toList_append, List.foldl_append,
      foldl_past_blank]
    rfl
  | @chunk p q text ps _ _ _ ih =>
    rw [ih fun text ht => hlines text (List.mem_cons_of_mem _ ht), textOf_cons, String.toList_append, List.foldl_append,
      Piece.text, Pos.foldl_past (hlines text List.mem_cons_self), String.length_toList]
    rfl

end Draws

/-! ## The pieces of a stroke -/

theorem draws_spaces (p : Pen) (n : Nat) : Draws p (List.replicate n (.blank ' ')) (p.spaces n) := by
  induction n generalizing p with
  | zero => exact .nil
  | succ n ih =>
    rw [List.replicate_succ, spaces]
    exact .space (ih p.space)

theorem draws_newlines (p : Pen) (n : Nat) : Draws p (List.replicate n (.blank '\n')) (p.newlines n) := by
  induction n generalizing p with
  | zero => exact .nil
  | succ n ih =>
    rw [List.replicate_succ, newlines]
    exact .newline (ih p.newline)

def gotoPieces (p : Pen) (target : Pos) : List Piece :=
  let newlines := target.line - p.pos.line
  let p := p.newlines newlines
  List.replicate newlines (.blank '\n')
    ++ if target.line = p.pos.line then List.replicate (target.col - p.pos.col) (.blank ' ') else []

def writePieces (p : Pen) (text : String) : List Piece :=
  if text = "" then [] else if p.joins text then [.blank ' ', .chunk text] else [.chunk text]

def sepPieces (p : Pen) (next : Option Pos) : List Piece :=
  if p.last = none ∨ p.last = some ' ' ∨ p.last = some '\n' then []
  else if next.any (p.pos ≤ ·) then []
  else [.blank ' ']

def gluePieces (p : Pen) (g : Glue) (prev next : Option Pos) : List Piece :=
  let prev := prev.getD p.pos
  match next with
  | none => p.writePieces g.padded
  | some next =>
    if next.line = prev.line ∧ prev.col + g.token.length ≤ next.col then
      let gap := next.col - prev.col - g.token.length
      if 0 < gap ∧ (g.before || !g.after) then
        .blank ' ' :: p.space.writePieces g.token ++ List.replicate (gap - 1) (.blank ' ')
      else p.writePieces g.token ++ List.replicate gap (.blank ' ')
    else if prev.line < next.line ∧ p.pos < next then p.writePieces g.leading
    else p.writePieces g.padded

/-- What the pen puts on the page in one stroke. -/
def strokePieces (p : Pen) : Stroke → List Piece
  | .goto none => []
  | .goto (some target) => p.gotoPieces target
  | .write text => p.writePieces text
  | .sep next => p.sepPieces next
  | .glue g prev next => p.gluePieces g prev next

theorem draws_write (p : Pen) (text : String) : Draws p (p.writePieces text) (p.write text) := by
  unfold writePieces
  split
  · rename_i hempty
    rw [hempty, write_empty]
    exact .nil
  · rename_i hne
    rw [write_eq_put p hne]
    split
    · refine .space (.chunk hne ?_ .nil)
      unfold joins
      rw [Blank.not_ident (.inr (.inl (last_space p)))]
      rfl
    · rename_i hjoins
      exact .chunk hne (Bool.eq_false_iff.2 hjoins) .nil

theorem draws_glue (p : Pen) (g : Glue) (prev next : Option Pos) :
    Draws p (p.gluePieces g prev next) (p.glue g prev next) := by
  unfold gluePieces glue
  cases next with
  | none => exact draws_write p _
  | some next =>
    dsimp only
    split
    · split
      · exact .append (.space (draws_write _ _)) (draws_spaces _ _)
      · exact .append (draws_write p _) (draws_spaces _ _)
    · split
      · exact draws_write p _
      · exact draws_write p _

/-- **A stroke draws its pieces.** -/
theorem draws_stroke (p : Pen) : ∀ s : Stroke, Draws p (p.strokePieces s) (p.stroke s)
  | .goto none => .nil
  | .goto (some q) => by
    show Draws p (p.gotoPieces q) (p.goto q)
    unfold gotoPieces goto
    dsimp only
    split
    · exact .append (draws_newlines p _) (draws_spaces _ _)
    · rw [List.append_nil]
      exact draws_newlines p _
  | .write text => draws_write p text
  | .sep next => by
    show Draws p (p.sepPieces next) (p.sep next)
    unfold sepPieces sep
    split
    · exact .nil
    · split
      · exact .nil
      · exact .space .nil
  | .glue g prev next => draws_glue p g prev next

/-! ## The pieces of a run -/

/-- What the pen puts on the page while it goes through the events. -/
def pieces (p : Pen) : List Event → List Piece
  | [] => []
  | .stroke s :: es => p.strokePieces s ++ (p.stroke s).pieces es
  | .enter id :: es => (p.enter id).pieces es
  | .leave id :: es => (p.leave id).pieces es

theorem pieces_append (p : Pen) (es es' : List Event) :
    p.pieces (es ++ es') = p.pieces es ++ (p.run es).pieces es' := by
  induction es generalizing p with
  | nil => rfl
  | cons e es ih =>
    match e with
    | .stroke s => exact (congrArg (p.strokePieces s ++ ·) (ih _)).trans (List.append_assoc ..).symm
    | .enter id => exact ih (p.enter id)
    | .leave id => exact ih (p.leave id)

/-- **The text of a run is that of its pieces.** -/
theorem out_run (p : Pen) (es : List Event) : (p.run es).out = p.out ++ textOf (p.pieces es) := by
  induction es generalizing p with
  | nil => exact String.append_empty.symm
  | cons e es ih =>
    match e with
    | .stroke s =>
      show ((p.stroke s).run es).out = p.out ++ textOf (p.strokePieces s ++ (p.stroke s).pieces es)
      rw [ih, (draws_stroke p s).out_eq, textOf_append, String.append_assoc]
    | .enter id => exact ih (p.enter id)
    | .leave id => exact ih (p.leave id)

theorem last_run (es : List Event) (hp : p.last = p.out.toList.getLast?) :
    (p.run es).last = (p.run es).out.toList.getLast? := by
  induction es generalizing p with
  | nil => exact hp
  | cons e es ih =>
    match e with
    | .stroke s => exact ih ((draws_stroke p s).last_eq hp)
    | .enter id => exact ih hp
    | .leave id => exact ih hp

theorem chunk_ne_run (hmem : .chunk text ∈ p.pieces es) : text ≠ "" := by
  induction es generalizing p with
  | nil => cases hmem
  | cons e es ih =>
    match e with
    | .stroke s => exact (List.mem_append.1 hmem).elim (draws_stroke p s).chunk_ne ih
    | .enter id => exact ih hmem
    | .leave id => exact ih hmem

theorem apart_run {front back : List Piece} (hp : p.last = p.out.toList.getLast?)
    (hps : p.pieces es = front ++ .chunk text :: back) :
    ((p.out ++ textOf front).toList.getLast?.any isIdentChar && text.toList.head?.any isIdentChar) = false := by
  induction es generalizing p front with
  | nil => exact absurd hps.symm (by simp [pieces])
  | cons e es ih =>
    match e with
    | .enter id => exact ih (p := p.enter id) hp hps
    | .leave id => exact ih (p := p.leave id) hp hps
    | .stroke s =>
      have hdraws := draws_stroke p s
      have hlater : ∀ front', front = p.strokePieces s ++ front' →
          (p.stroke s).pieces es = front' ++ .chunk text :: back →
          ((p.out ++ textOf front).toList.getLast?.any isIdentChar && text.toList.head?.any isIdentChar) = false :=
        fun front' hfront hrest => by
          have := ih (hdraws.last_eq hp) hrest
          rwa [hdraws.out_eq, String.append_assoc, ← textOf_append, ← hfront] at this
      rcases List.append_eq_append_iff.1 hps with ⟨front', hfront, hrest⟩ | ⟨mid, hmid, hrest⟩
      · exact hlater front' hfront hrest
      · cases mid with
        | nil => exact hlater [] (by rw [hmid, List.append_nil, List.append_nil]) hrest.symm
        | cons piece mid =>
          obtain ⟨rfl, -⟩ := List.cons.inj hrest
          exact hdraws.apart hp hmid

/-- **Two chunks never put two identifier characters next to each other.** -/
theorem not_joined {front back : List Piece} {a b : String} (hp : p.last = p.out.toList.getLast?)
    (hps : p.pieces es = front ++ .chunk a :: .chunk b :: back) :
    ¬ (a.toList.getLast?.any isIdentChar = true ∧ b.toList.head?.any isIdentChar = true) := by
  rintro ⟨ha, hb⟩
  have hne : a ≠ "" := by
    have hmem : .chunk a ∈ p.pieces es := by rw [hps]; simp
    exact chunk_ne_run hmem
  have hnil : a.toList ≠ [] := fun hnil => hne (String.toList_eq_nil_iff.1 hnil)
  have happ : p.pieces es = (front ++ [.chunk a]) ++ .chunk b :: back := by rw [hps]; simp
  have hapart := apart_run hp happ
  rw [textOf_append, ← String.append_assoc, String.toList_append, textOf_cons, textOf_nil, String.append_empty,
    Piece.text, List.getLast?_append_of_ne_nil _ hnil, ha, hb] at hapart
  cases hapart

theorem pos_run (hlines : ∀ text, .chunk text ∈ p.pieces es → '\n' ∉ text.toList) :
    (p.run es).pos = (textOf (p.pieces es)).toList.foldl Pos.past p.pos := by
  induction es generalizing p with
  | nil => rfl
  | cons e es ih =>
    match e with
    | .enter id => exact ih (p := p.enter id) hlines
    | .leave id => exact ih (p := p.leave id) hlines
    | .stroke s =>
      show ((p.stroke s).run es).pos = (textOf (p.strokePieces s ++ (p.stroke s).pieces es)).toList.foldl Pos.past p.pos
      rw [ih fun text ht => hlines text (List.mem_append_right _ ht), textOf_append, String.toList_append,
        List.foldl_append, (draws_stroke p s).pos_eq fun text ht => hlines text (List.mem_append_left _ ht)]

theorem all_isBlank_of_inkAt {a : Pos} (h : inkAt a ps = none) : ∀ text, .chunk text ∉ ps := fun text hmem => by
  rw [inkAt_eq] at h
  split at h
  · rename_i hall
    exact absurd (List.all_eq_true.1 hall _ hmem) nofun
  · cases h

/-- The first chunk of two runs is that of the first, or else that of the second. -/
theorem inkAt_pieces_append (p : Pen) (es es' : List Event) : inkAt p.pos (p.pieces (es ++ es')) =
    (inkAt p.pos (p.pieces es)).or (inkAt (p.run es).pos ((p.run es).pieces es')) := by
  rw [pieces_append, inkAt_append]
  cases hink : inkAt p.pos (p.pieces es) with
  | none => rw [pos_run fun text ht => absurd ht (all_isBlank_of_inkAt hink text)]
  | some a => rfl

/-- Going to a position writes no chunk. -/
theorem inkAt_goto (p : Pen) (target : Option Pos) : inkAt p.pos (p.pieces [.stroke (.goto target)]) = none := by
  have hblank : (p.pieces [.stroke (.goto target)]).all Piece.isBlank = true := by
    rw [List.all_eq_true]
    intro piece hpiece
    cases target with
    | none => cases hpiece
    | some q =>
      rw [pieces, pieces, List.append_nil, strokePieces, gotoPieces, List.mem_append] at hpiece
      rcases hpiece with hpiece | hpiece
      · rw [List.eq_of_mem_replicate hpiece]
        rfl
      · split at hpiece
        · rw [List.eq_of_mem_replicate hpiece]
          rfl
        · cases hpiece
  rw [inkAt_eq, if_pos hblank]

/-- **A chunk lies ahead of where the run begins, and before where it ends.** -/
theorem inkAt_bounds {a : Pos} (h : inkAt p.pos (p.pieces es) = some a) : p.pos ≤ a ∧ a < (p.run es).pos := by
  induction es generalizing p with
  | nil => cases h
  | cons e es ih =>
    match e with
    | .enter id => exact ih (p := p.enter id) h
    | .leave id => exact ih (p := p.leave id) h
    | .stroke s =>
      have hsplit := inkAt_pieces_append p [.stroke s] es
      rw [List.singleton_append, h, pieces, pieces, List.append_nil] at hsplit
      cases hink : inkAt p.pos (p.strokePieces s) with
      | none =>
        rw [hink, Option.none_or] at hsplit
        obtain ⟨hle, hlt⟩ := ih (p := p.stroke s) hsplit.symm
        exact ⟨(Wrote.stroke p s).pos_le.trans hle, hlt⟩
      | some b =>
        rw [hink] at hsplit
        obtain rfl : a = b := Option.some.inj hsplit
        obtain ⟨hle, hlt⟩ := (draws_stroke p s).ink_bounds hink
        exact ⟨hle, hlt.trans_le (le_run (p.stroke s) es)⟩

/-- **A node that waits begins where the first chunk begins**, as long as it is neither entered again nor left. -/
theorem starts_run (hx : x ∈ p.pending) (henter : .enter x ∉ es) (hleave : .leave x ∉ es) :
    (p.run es).starts.get? x = (inkAt p.pos (p.pieces es)).or (p.starts.get? x) := by
  induction es generalizing p with
  | nil => rfl
  | cons e es ih =>
    rw [List.mem_cons, not_or] at henter hleave
    match e with
    | .enter y => exact ih (p := p.enter y) (List.mem_cons_of_mem _ hx) henter.2 hleave.2
    | .leave y =>
      refine ih (p := p.leave y) (List.mem_filter.2 ⟨hx, ?_⟩) henter.2 hleave.2
      exact decide_eq_true fun hxy => hleave.1 (hxy ▸ rfl)
    | .stroke s =>
      have hdraws := draws_stroke p s
      show ((p.stroke s).run es).starts.get? x = (inkAt p.pos (p.strokePieces s ++ (p.stroke s).pieces es)).or _
      rw [inkAt_append]
      cases hink : inkAt p.pos (p.strokePieces s) with
      | none =>
        obtain ⟨hpending, hstarts⟩ := hdraws.begun.1 hink
        rw [ih (by rw [hpending]; exact hx) henter.2 hleave.2, hstarts,
          hdraws.pos_eq fun text ht => absurd ht (all_isBlank_of_inkAt hink text)]
        rfl
      | some a =>
        obtain ⟨hpending, hstarts⟩ := hdraws.begun.2 a hink
        have hnot : x ∉ (p.stroke s).pending := by
          rw [hpending]
          exact List.not_mem_nil
        rw [(run_of_not_pending hnot henter.2).2, hstarts, NodeMap.get?_insertAll, if_pos hx]
        rfl

end Pen

end UniformAccess
