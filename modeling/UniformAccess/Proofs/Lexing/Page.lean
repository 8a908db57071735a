import UniformAccess.Proofs.Lexing.Marks
/-!
# The page as marks

The pieces that the pen puts on the page are marks: a blank is one, and a chunk is a token with spaces around it, or
some brackets in a row. If every stroke has a token to write, or brackets, the tokens on the page are those of the
strokes, in order (`tokens_pieces`), and no two tokens touch that are both words (`isChain_pieces`).
-/
namespace UniformAccess

namespace Lexing

open Mark

/-! ## Chunks -/

/-- The tokens of a text without spaces around it. -/
def tokensIn (w : List Char) : List Token := if w.all brackets.contains then w.map ([·]) else [w]

/-- A text that is one token, or brackets only. -/
def Spelled (text : String) : Prop := text.toList.all brackets.contains = true ∨ isToken text.toList = true

def chunkMarks (cs : List Char) : List Mark :=
  let body := cs.dropWhile (· == ' ')
  (cs.takeWhile (· == ' ')).map .blank ++ (tokensIn (body.rdropWhile (· == ' '))).map .token
    ++ (body.rtakeWhile (· == ' ')).map .blank

def pieceMarks : Piece → List Mark
  | .blank c => [.blank c]
  | .chunk text => chunkMarks text.toList

def marks (ps : List Piece) : List Mark := ps.flatMap pieceMarks

@[simp]
theorem marks_nil : marks [] = [] := rfl

@[simp]
theorem marks_cons (piece : Piece) (ps : List Piece) : marks (piece :: ps) = pieceMarks piece ++ marks ps :=
  List.flatMap_cons

@[simp]
theorem marks_append (ps ps' : List Piece) : marks (ps ++ ps') = marks ps ++ marks ps' := List.flatMap_append

@[simp]
theorem tokens_marks_replicate (n : Nat) (c : Char) : tokens (marks (List.replicate n (.blank c))) = [] := by
  induction n with
  | zero => rfl
  | succ n ih => exact ih

theorem flatten_tokensIn (w : List Char) : (tokensIn w).flatten = w := by
  unfold tokensIn
  split
  · rw [← List.flatMap_def]
    exact List.flatMap_singleton' w
  · exact List.flatten_singleton

theorem ne_nil_of_mem_tokensIn {w : List Char} {a : Token} (h : a ∈ tokensIn w) : a ≠ [] := by
  unfold tokensIn at h
  split at h
  · obtain ⟨c, -, rfl⟩ := List.mem_map.1 h
    exact nofun
  · rename_i hw
    obtain rfl := List.mem_singleton.1 h
    rintro rfl
    exact hw rfl

theorem isToken_of_mem_tokensIn {text : String} {a : Token} (htext : Spelled text) (h : a ∈ tokensIn text.toList) :
    isToken a = true := by
  unfold tokensIn at h
  split at h
  · rename_i hw
    obtain ⟨c, hc, rfl⟩ := List.mem_map.1 h
    exact isToken_bracket c (List.contains_iff_mem.1 (List.all_eq_true.1 hw c hc))
  · rename_i hw
    obtain rfl := List.mem_singleton.1 h
    exact htext.resolve_left hw

@[simp]
theorem textOf_chunkMarks (cs : List Char) : textOf (chunkMarks cs) = cs := by
  unfold chunkMarks
  simp only [textOf_append, textOf_map_blank, textOf_map_token, flatten_tokensIn, List.append_assoc,
    List.rdropWhile_append_rtakeWhile, List.takeWhile_append_dropWhile]

theorem textOf_marks (ps : List Piece) : textOf (marks ps) = (Piece.textOf ps).toList := by
  induction ps with
  | nil => rfl
  | cons piece ps ih =>
    rw [marks_cons, Mark.textOf_append, ih, Piece.textOf_cons, String.toList_append]
    cases piece with
    | blank c => rw [Piece.text, String.toList_singleton]; rfl
    | chunk text => rw [pieceMarks, textOf_chunkMarks, Piece.text]

/-! ## Spaces around a token -/

/-- A text with no space at either end. -/
structure Tight (w : List Char) : Prop where
  ne_nil : w ≠ []
  head : w.head? ≠ some ' '
  last : w.getLast? ≠ some ' '

theorem getLast?_of_closesQuote {quote : Char} {escaped : Bool} {cs : List Char}
    (h : closesQuote quote escaped cs = true) : cs.getLast? = some quote := by
  induction cs generalizing escaped with
  | nil => cases h
  | cons c cs ih =>
    have hlater : ∀ escaped, closesQuote quote escaped cs = true →
        (c :: cs).getLast? = some quote := fun escaped h => by
      rw [List.getLast?_cons, ih h]
      rfl
    rw [closesQuote] at h
    split at h
    · exact hlater _ h
    · split at h
      · rename_i hquote
        rw [List.isEmpty_iff.1 h, hquote]
        rfl
      · exact hlater _ h

theorem getLast?_ne_space {a : Token} (h : isToken a = true) : a.getLast? ≠ some ' ' := by
  intro hlast
  have hmem : ' ' ∈ a := List.mem_of_getLast? hlast
  unfold isToken at h
  rw [Bool.or_eq_true, Bool.or_eq_true, Bool.or_eq_true] at h
  rcases h with ((h | h) | h) | h
  · obtain - | ⟨c, cs⟩ := a
    · cases h
    obtain ⟨hc, -, hcs⟩ := isIdentChar_head h
    have hspace : isIdentChar ' ' = true :=
      (List.mem_cons.1 hmem).elim (fun heq => heq ▸ hc) (List.all_eq_true.1 hcs ' ')
    revert hspace
    decide
  · obtain ⟨init, rfl⟩ := List.getLast?_eq_some_iff.1 hlast
    have hstep : ∀ s : Number, s.step ' ' = none := fun s => by cases s <;> decide
    rw [isNumber, Number.read_append] at h
    cases hread : Number.start.read init with
    | none =>
      rw [hread] at h
      cases h
    | some s =>
      rw [hread, Option.bind_some, Number.read_cons, hstep] at h
      cases h
  · obtain - | ⟨c, cs⟩ := a
    · cases h
    rw [isQuoted, Bool.and_eq_true] at h
    rw [List.getLast?_cons, getLast?_of_closesQuote h.2] at hlast
    obtain rfl : c = ' ' := Option.some.inj hlast
    exact absurd h.1 (by decide)
  · exact absurd (not_isBlank_of_mem_symbol a (isSymbol_iff.1 h) ' ' hmem) (by decide)

theorem tight_of_spelled {text : String} (h : Spelled text) (hne : text ≠ "") : Tight text.toList := by
  have hnil : text.toList ≠ [] := fun hnil => hne (String.toList_eq_nil_iff.1 hnil)
  rcases h with h | h
  · have hspace : ' ' ∉ text.toList := fun hmem => absurd (List.all_eq_true.1 h ' ' hmem) (by decide)
    exact ⟨hnil, fun hs => hspace (List.mem_of_head? hs), fun hs => hspace (List.mem_of_getLast? hs)⟩
  · refine ⟨hnil, fun hs => ?_, getLast?_ne_space h⟩
    obtain ⟨cs, hcs⟩ := List.head?_eq_some_iff.1 hs
    rw [hcs] at h
    exact absurd (not_isBlank_of_isToken h) (by decide)

theorem takeWhile_spaces {w : List Char} (h : w.head? ≠ some ' ') (n : Nat) :
    (List.replicate n ' ' ++ w).takeWhile (· == ' ') = List.replicate n ' ' := by
  induction n with
  | zero =>
    cases w with
    | nil => rfl
    | cons c w =>
      have hc : (c == ' ') = false := beq_eq_false_iff_ne.2 fun hc => h (congrArg some hc)
      simp [hc]
  | succ n ih => rw [List.replicate_succ, List.cons_append, List.takeWhile_cons_of_pos (by rfl), ih]

theorem dropWhile_spaces {w : List Char} (h : w.head? ≠ some ' ') (n : Nat) :
    (List.replicate n ' ' ++ w).dropWhile (· == ' ') = w := by
  have := List.takeWhile_append_dropWhile (p := (· == ' ')) (l := List.replicate n ' ' ++ w)
  rw [takeWhile_spaces h n] at this
  exact List.append_cancel_left this

theorem chunkMarks_spaces {w : List Char} (h : Tight w) (m n : Nat) :
    chunkMarks (List.replicate m ' ' ++ w ++ List.replicate n ' ') =
      (List.replicate m ' ').map .blank ++ (tokensIn w).map .token ++ (List.replicate n ' ').map .blank := by
  have hhead : (w ++ List.replicate n ' ').head? ≠ some ' ' := by
    rw [List.head?_append_of_ne_nil _ h.ne_nil]
    exact h.head
  have hreverse : (w ++ List.replicate n ' ').reverse = List.replicate n ' ' ++ w.reverse := by simp
  have hlast : w.reverse.head? ≠ some ' ' := by
    rw [List.head?_reverse]
    exact h.last
  have happend : List.replicate m ' ' ++ w ++ List.replicate n ' ' =
      List.replicate m ' ' ++ (w ++ List.replicate n ' ') :=
    List.append_assoc ..
  unfold chunkMarks
  rw [happend, takeWhile_spaces hhead, dropWhile_spaces hhead]
  dsimp only
  rw [List.rdropWhile, List.rtakeWhile, hreverse, takeWhile_spaces hlast, dropWhile_spaces hlast, List.reverse_reverse,
    List.reverse_replicate]

theorem tokens_chunkMarks {text : String} (h : Spelled text) (m n : Nat) :
    tokens (chunkMarks (List.replicate m ' ' ++ text.toList ++ List.replicate n ' ')) = tokensIn text.toList := by
  by_cases hne : text = ""
  · subst hne
    have hspaces : List.replicate m ' ' ++ "".toList ++ List.replicate n ' ' =
      List.replicate (m + n) ' ' ++ [] := by simp
    unfold chunkMarks
    rw [hspaces, takeWhile_spaces (by decide), dropWhile_spaces (by decide)]
    simp only [tokens_append, tokens_map_blank, tokens_map_token, List.rdropWhile_nil, List.append_nil, List.nil_append]
    rfl
  · rw [chunkMarks_spaces (tight_of_spelled h hne)]
    simp only [tokens_append, tokens_map_blank, tokens_map_token, List.append_nil, List.nil_append]

theorem eq_space_of_mem_chunkMarks {c : Char} {cs : List Char} (h : blank c ∈ chunkMarks cs) : c = ' ' := by
  unfold chunkMarks at h
  simp only [List.mem_append, List.mem_map, reduceCtorEq, and_false, exists_false, or_false, Mark.blank.injEq,
    exists_eq_right] at h
  rcases h with h | h
  · simpa using List.mem_takeWhile_imp h
  · simpa using List.mem_rtakeWhile_imp h

/-- Both characters where the tokens touch are of identifiers. -/
def Joined (a b : Token) : Prop := a.getLast?.any isIdentChar = true ∧ b.head?.any isIdentChar = true

theorem isChain_chunkMarks (cs : List Char) : (chunkMarks cs).IsChain (Touch fun a b => ¬ Joined a b) := by
  refine isChain_touch ?_
  unfold chunkMarks
  simp only [tokens_append, tokens_map_blank, tokens_map_token, List.nil_append, List.append_nil]
  unfold tokensIn
  split
  · rename_i hw
    rw [List.isChain_map]
    refine List.Pairwise.isChain (List.Pairwise.imp_of_mem ?_
      (List.pairwise_of_forall (R := fun _ _ => True) fun _ _ => trivial))
    rintro c d - hd - ⟨-, hident⟩
    rw [show ([d] : Token).head?.any isIdentChar = isIdentChar d from rfl,
      not_isIdentChar_bracket d (List.contains_iff_mem.1 (List.all_eq_true.1 hw d hd))] at hident
    cases hident
  · exact .singleton _

/-- The first token of a chunk begins like it, if no space is before it, and the last one ends like it. -/
theorem chunkMarks_ends {cs : List Char} {a : Token} : (token a ∈ (chunkMarks cs).head? → cs.head? = a.head?) ∧
    (token a ∈ (chunkMarks cs).getLast? → cs.getLast? = a.getLast?) := by
  have hne : token a ∈ chunkMarks cs → a ≠ [] := fun hmem => by
    unfold chunkMarks at hmem
    simp only [List.mem_append, List.mem_map, reduceCtorEq, and_false, exists_false, false_or, or_false,
      Mark.token.injEq, exists_eq_right] at hmem
    exact ne_nil_of_mem_tokensIn hmem
  constructor <;> intro h
  · obtain ⟨ms, hms⟩ := List.head?_eq_some_iff.1 h
    have htext := textOf_chunkMarks cs
    rw [hms, textOf_cons, Mark.text] at htext
    rw [← htext, List.head?_append_of_ne_nil _ (hne (List.mem_of_head? h))]
  · obtain ⟨ms, hms⟩ := List.getLast?_eq_some_iff.1 h
    have htext := textOf_chunkMarks cs
    rw [hms, textOf_append] at htext
    have hlast : textOf [token a] = a := List.append_nil a
    rw [← htext, hlast, List.getLast?_append_of_ne_nil _ (hne (List.mem_of_getLast? h))]

end Lexing

open Lexing Mark

/-- The tokens that a stroke writes. -/
def Stroke.tokens (s : Stroke) : List Token := s.text?.toList.flatMap (fun text => tokensIn text.toList)

def Event.tokens : Event → List Token
  | .stroke s => s.tokens
  | _ => []

namespace Pen

variable {p q : Pen} {ps : List Piece} {es : List Event} {s : Stroke} {text : String}

/-! ## Strokes -/

theorem Draws.isBlank {c : Char} (h : Draws p ps q) (hc : .blank c ∈ ps) : isBlank c = true := by
  induction h with
  | nil => cases hc
  | space _ ih =>
    rcases List.mem_cons.1 hc with heq | hc
    · cases heq
      rfl
    · exact ih hc
  | newline _ ih =>
    rcases List.mem_cons.1 hc with heq | hc
    · cases heq
      rfl
    · exact ih hc
  | chunk _ _ _ ih => exact ih ((List.mem_cons.1 hc).resolve_left nofun)

theorem tokens_writePieces (p : Pen) (text : String) :
    tokens (marks (p.writePieces text)) = tokens (chunkMarks text.toList) := by
  unfold writePieces
  split
  · rename_i hempty
    rw [hempty]
    rfl
  · split <;> simp [pieceMarks]

theorem tokens_gluePieces {g : Glue} (h : Spelled g.token) (prev next : Option Pos) :
    tokens (marks (p.gluePieces g prev next)) = tokensIn g.token.toList := by
  have hwrite : ∀ (p : Pen), tokens (marks (p.writePieces g.token)) = tokensIn g.token.toList := fun p => by
    have := tokens_chunkMarks h 0 0
    rw [tokens_writePieces]
    simpa using this
  have hleading : tokens (marks (p.writePieces g.leading)) = tokensIn g.token.toList := by
    unfold Glue.leading
    split
    · rw [tokens_writePieces, String.toList_append]
      simpa using tokens_chunkMarks h 1 0
    · exact hwrite p
  have hpadded : tokens (marks (p.writePieces g.padded)) = tokensIn g.token.toList := by
    unfold Glue.padded
    split
    · rw [tokens_writePieces, String.toList_append]
      unfold Glue.leading
      split
      · rw [String.toList_append]
        simpa using tokens_chunkMarks h 1 1
      · simpa using tokens_chunkMarks h 0 1
    · exact hleading
  unfold gluePieces
  cases next with
  | none => exact hpadded
  | some next =>
    dsimp only
    split
    · split
      · simp [pieceMarks, hwrite]
      · simp [hwrite]
    · split
      · exact hleading
      · exact hpadded

/-- **A stroke puts its tokens on the page.** -/
theorem tokens_strokePieces (p : Pen) (h : ∀ text ∈ s.text?, Spelled text) :
    tokens (marks (p.strokePieces s)) = s.tokens := by
  match s with
  | .goto none => rfl
  | .goto (some q) =>
    show tokens (marks (p.gotoPieces q)) = []
    unfold gotoPieces
    dsimp only
    split <;> simp
  | .write text =>
    have := tokens_chunkMarks (h text rfl) 0 0
    rw [strokePieces, tokens_writePieces]
    simpa [Stroke.tokens, Stroke.text?] using this
  | .sep next =>
    show tokens (marks (p.sepPieces next)) = []
    unfold sepPieces
    split
    · rfl
    · split <;> rfl
  | .glue g prev next =>
    rw [strokePieces, tokens_gluePieces (h g.token rfl)]
    simp [Stroke.tokens, Stroke.text?]

/-! ## Runs -/

/-- **The tokens on the page are those of the strokes, in order.** -/
theorem tokens_pieces (p : Pen) (h : ∀ s, .stroke s ∈ es → ∀ text ∈ s.text?, Spelled text) :
    tokens (marks (p.pieces es)) = es.flatMap Event.tokens := by
  induction es generalizing p with
  | nil => rfl
  | cons e es ih =>
    have ih := fun p => ih p fun s hs => h s (List.mem_cons_of_mem _ hs)
    match e with
    | .enter id => exact ih (p.enter id)
    | .leave id => exact ih (p.leave id)
    | .stroke s =>
      rw [pieces, marks_append, tokens_append, ih, tokens_strokePieces p (h s List.mem_cons_self)]
      rfl

theorem isBlank_of_mem_pieces {c : Char} (hc : .blank c ∈ p.pieces es) : isBlank c = true := by
  induction es generalizing p with
  | nil => cases hc
  | cons e es ih =>
    match e with
    | .enter id => exact ih hc
    | .leave id => exact ih hc
    | .stroke s => exact (List.mem_append.1 hc).elim (draws_stroke p s).isBlank ih

theorem isValid_pieces (p : Pen) (h : ∀ s, .stroke s ∈ es → ∀ text ∈ s.text?, Spelled text) :
    ∀ m ∈ marks (p.pieces es), m.IsValid := by
  intro m hm
  cases m with
  | blank c =>
    obtain ⟨piece, hpiece, hm⟩ := List.mem_flatMap.1 hm
    cases piece with
    | blank c' =>
      cases List.mem_singleton.1 hm
      exact isBlank_of_mem_pieces hpiece
    | chunk text =>
      rw [eq_space_of_mem_chunkMarks hm]
      rfl
  | token a =>
    have ha : a ∈ tokens (marks (p.pieces es)) := List.mem_filterMap.2 ⟨_, hm, rfl⟩
    rw [tokens_pieces p h] at ha
    obtain ⟨e, he, ha⟩ := List.mem_flatMap.1 ha
    match e with
    | .stroke s =>
      obtain ⟨text, htext, ha⟩ := List.mem_flatMap.1 ha
      exact isToken_of_mem_tokensIn (h s he text (Option.mem_toList.1 htext)) ha

/-- **Words on the page do not touch.** -/
theorem isChain_pieces (es : List Event) (hp : p.last = p.out.toList.getLast?) :
    (marks (p.pieces es)).IsChain (Touch fun a b => ¬ Joined a b) := by
  have hmarks : marks (p.pieces es) = ((p.pieces es).map pieceMarks).flatten := List.flatMap_def
  have hnil : [] ∉ (p.pieces es).map pieceMarks := by
    rw [List.mem_map]
    rintro ⟨piece, hpiece, heq⟩
    cases piece with
    | blank c => cases heq
    | chunk text =>
      refine chunk_ne_run hpiece (String.toList_eq_nil_iff.1 ?_)
      rw [← textOf_chunkMarks text.toList, show chunkMarks text.toList = [] from heq]
      rfl
  rw [hmarks, List.isChain_flatten hnil, List.isChain_map, List.isChain_iff_forall_rel_of_append_cons_cons]
  constructor
  · intro ms hms
    obtain ⟨piece, -, rfl⟩ := List.mem_map.1 hms
    cases piece with
    | blank c => exact .singleton _
    | chunk text => exact isChain_chunkMarks _
  · intro piece piece' front back heq m hm m' hm'
    match piece, piece', m, m' with
    | _, _, .blank _, _ => trivial
    | _, _, .token _, .blank _ => trivial
    | .blank c, _, .token a, .token b => cases hm
    | .chunk text, .blank c, .token a, .token b => cases hm'
    | .chunk text, .chunk text', .token a, .token b =>
      rintro ⟨ha, hb⟩
      rw [← chunkMarks_ends.2 hm] at ha
      rw [← chunkMarks_ends.1 hm'] at hb
      exact not_joined hp heq ⟨ha, hb⟩

end Pen

end UniformAccess
