import UniformAccess.Proofs.Lexing.Lexer
import UniformAccess.Proofs.Printing.Pieces
import Mathlib.Data.List.Chain
import Mathlib.Data.List.DropRight
/-!
# Tokens on the page

What the pen puts on the page is a row of marks: tokens, and blanks between them. Two tokens touch if no blank is
between them. The tokens are read back as they were written if no token sticks to the one it touches (`lex_textOf`).

A sign sticks to a sign, digits stick to a period, and the brackets that close type arguments stick to each other. As
far as these are the only tokens on the page that stick, the text is misread exactly where one of the first two touch
(`lex_eq_iff`), and brackets that touch are read as one token each time that is possible (`exists_lex_closers`).
-/
namespace UniformAccess.Lexing

inductive Mark where
  | blank (c : Char)
  | token (a : Token)
deriving DecidableEq, Repr

namespace Mark

def text : Mark → List Char
  | blank c => [c]
  | token a => a

def textOf (ms : List Mark) : List Char := ms.flatMap text

def token? : Mark → Option Token
  | blank _ => none
  | token a => some a

def tokens (ms : List Mark) : List Token := ms.filterMap token?

/-- Whether the mark is what it says: a space or a newline, or a token. -/
def IsValid : Mark → Prop
  | blank c => isBlank c = true
  | token a => isToken a = true

/-- Tokens that touch stand in the relation `R`. -/
def Touch (R : Token → Token → Prop) : Mark → Mark → Prop
  | token a, token b => R a b
  | _, _ => True

@[simp]
theorem textOf_cons (m : Mark) (ms : List Mark) : textOf (m :: ms) = m.text ++ textOf ms := List.flatMap_cons

@[simp]
theorem textOf_append (ms ms' : List Mark) : textOf (ms ++ ms') = textOf ms ++ textOf ms' := List.flatMap_append

@[simp]
theorem tokens_append (ms ms' : List Mark) : tokens (ms ++ ms') = tokens ms ++ tokens ms' := List.filterMap_append

@[simp]
theorem tokens_blank (c : Char) (ms : List Mark) : tokens (blank c :: ms) = tokens ms := rfl

@[simp]
theorem tokens_token (a : Token) (ms : List Mark) : tokens (token a :: ms) = a :: tokens ms := rfl

@[simp]
theorem tokens_map_blank (cs : List Char) : tokens (cs.map blank) = [] := by
  induction cs with
  | nil => rfl
  | cons c cs ih => exact ih

@[simp]
theorem tokens_map_token (as : List Token) : tokens (as.map token) = as := by
  induction as with
  | nil => rfl
  | cons a as ih => exact congrArg (a :: ·) ih

@[simp]
theorem textOf_map_blank (cs : List Char) : textOf (cs.map blank) = cs := by
  induction cs with
  | nil => rfl
  | cons c cs ih => exact congrArg (c :: ·) ih

@[simp]
theorem textOf_map_token (as : List Token) : textOf (as.map token) = as.flatten := by
  induction as with
  | nil => rfl
  | cons a as ih => exact congrArg (a ++ ·) ih

section

variable {R S : Token → Token → Prop} {ms : List Mark}

/-- Tokens that touch follow each other. -/
theorem isChain_touch (h : (tokens ms).IsChain R) : ms.IsChain (Touch R) := by
  induction ms with
  | nil => exact .nil
  | cons m ms ih =>
    cases m with
    | blank c => exact List.isChain_cons.2 ⟨fun _ _ => trivial, ih h⟩
    | token a =>
      refine List.isChain_cons.2 ⟨fun m hm => ?_, ih (List.isChain_cons.1 h).2⟩
      cases m with
      | blank c => trivial
      | token b =>
        obtain ⟨ms', rfl⟩ : ∃ ms', ms = token b :: ms' := by
          cases ms with
          | nil => cases hm
          | cons m ms => cases hm; exact ⟨ms, rfl⟩
        exact (List.isChain_cons.1 h).1 b rfl

theorem isChain_touch_and (h : ms.IsChain (Touch R)) (h' : ms.IsChain (Touch S)) :
    ms.IsChain (Touch fun a b => R a b ∧ S a b) := by
  rw [List.isChain_iff_forall_rel_of_append_cons_cons] at h h' ⊢
  intro m m' front back heq
  have hR := h heq
  have hS := h' heq
  cases m with
  | blank c => trivial
  | token a =>
    cases m' with
    | blank c => trivial
    | token b => exact ⟨hR, hS⟩

theorem isChain_touch_mono (hRS : ∀ a b, R a b → S a b) (h : ms.IsChain (Touch R)) : ms.IsChain (Touch S) :=
  h.imp fun m m' hR => by
    cases m with
    | blank c => trivial
    | token a =>
      cases m' with
      | blank c => trivial
      | token b => exact hRS a b hR

end

end Mark

open Mark

variable {a b : Token} {ms : List Mark}

/-! ## Reading marks -/

/-- Whether a token that `b` follows directly may go on. -/
def Sticks (a b : Token) : Prop := ∃ c ∈ b.head?, sticks a c = true

theorem sticks_of_isBlank {c : Char} (h : isBlank c = true) (a : Token) : sticks a c = false := by
  have hc : c = ' ' ∨ c = '\n' := by simpa [isBlank] using h
  have hnot : isIdentChar c = false ∧ c ≠ '.' ∧ c.isDigit = false := by
    rcases hc with rfl | rfl <;> decide
  rw [sticks_eq_false]
  refine ⟨fun _ => hnot.1, fun _ => ⟨hnot.1, fun _ => hnot.2.1⟩, fun _ => ⟨fun s hs hbegin => ?_, fun _ => hnot.2.2⟩⟩
  rw [not_isBlank_of_mem_symbol s hs c (hbegin.subset (by simp))] at h
  cases h

/-- A token is closed if it does not stick to what it touches. -/
theorem closed_textOf (ha : isToken a = true) (hvalid : ∀ m ∈ ms, m.IsValid)
    (h : ∀ m ∈ ms.head?, ∀ c ∈ m.text.head?, ∀ b, m = token b → sticks a c = false) : Closed a (textOf ms) := by
  refine closed_of_not_sticks ha fun c hc => ?_
  cases ms with
  | nil => cases hc
  | cons m ms =>
    cases m with
    | blank c' =>
      obtain rfl : c' = c := Option.some.inj hc
      exact sticks_of_isBlank (hvalid _ List.mem_cons_self) a
    | token b =>
      have hb : isToken b = true := hvalid _ List.mem_cons_self
      refine h _ rfl c ?_ b rfl
      rwa [textOf_cons, Mark.text, List.head?_append_of_ne_nil _ (ne_nil_of_isToken hb)] at hc

/-- **Tokens are read back as they are, if none sticks to the one it touches.** -/
theorem lex_textOf (hvalid : ∀ m ∈ ms, m.IsValid) (h : ms.IsChain (Touch fun a b => ¬ Sticks a b)) :
    lex (textOf ms) = some (tokens ms) := by
  induction ms with
  | nil => exact lex_nil
  | cons m ms ih =>
    obtain ⟨hhead, htail⟩ := List.isChain_cons.1 h
    have ih := ih (fun m hm => hvalid m (List.mem_cons_of_mem _ hm)) htail
    have hm := hvalid m List.mem_cons_self
    cases m with
    | blank c => exact (lex_blank hm).trans ih
    | token a =>
      have hclosed : Closed a (textOf ms) :=
        closed_textOf hm (fun m hm => hvalid m (List.mem_cons_of_mem _ hm)) fun m hmem c hc b hb => by
          subst hb
          rw [← Bool.not_eq_true]
          exact fun hsticks => hhead _ hmem ⟨c, hc, hsticks⟩
      rw [textOf_cons, Mark.text, lex_append hm hclosed, ih]
      rfl

/-! ## Tokens that may stick -/

/-- Tokens that read as another one where they touch: a sign before a sign, and digits before a period. -/
def clashes (a b : Token) : Bool :=
  a == ['+'] && b.head? == some '+' || a == ['-'] && b.head? == some '-' || isInteger a && b.head? == some '.'

/-- Two brackets that close type arguments. -/
def Closers (a b : Token) : Prop := a = ['>'] ∧ b = ['>']

theorem isToken_of_clashes (h : clashes a b = true) : ∃ c cs, b = c :: cs ∧ isToken (a ++ [c]) = true := by
  have hhead : ∀ c, b.head? = some c → isToken (a ++ [c]) = true → ∃ c cs, b = c :: cs ∧ isToken (a ++ [c]) = true :=
    fun c hc htoken => by
      obtain ⟨cs, rfl⟩ := List.head?_eq_some_iff.1 hc
      exact ⟨c, cs, rfl, htoken⟩
  simp only [clashes, Bool.or_eq_true, Bool.and_eq_true, beq_iff_eq] at h
  rcases h with (⟨rfl, hb⟩ | ⟨rfl, hb⟩) | ⟨ha, hb⟩
  · exact hhead _ hb (by decide)
  · exact hhead _ hb (by decide)
  · refine hhead _ hb ?_
    have hread : Number.start.read a = some .whole := beq_iff_eq.1 ha
    have hnumber : isNumber (a ++ ['.']) = true := by
      rw [isNumber, Number.read_append, hread]
      rfl
    rw [isToken, hnumber, Bool.or_true]
    rfl

/-- **The text is misread exactly if tokens touch that clash**, where no others stick. -/
theorem lex_eq_iff (hvalid : ∀ m ∈ ms, m.IsValid)
    (h : ms.IsChain (Touch fun a b => Sticks a b → clashes a b = true)) :
    lex (textOf ms) = some (tokens ms) ↔ ms.IsChain (Touch fun a b => clashes a b = false) := by
  constructor
  · intro hlex
    induction ms with
    | nil => exact .nil
    | cons m ms ih =>
      obtain ⟨hhead, htail⟩ := List.isChain_cons.1 h
      have hrest : ∀ m ∈ ms, m.IsValid := fun m hm => hvalid m (List.mem_cons_of_mem _ hm)
      have hm := hvalid m List.mem_cons_self
      cases m with
      | blank c => exact List.isChain_cons.2 ⟨fun _ _ => trivial, ih hrest htail ((lex_blank hm).symm.trans hlex)⟩
      | token a =>
        have happ : ∀ m ∈ ms.head?, Touch (fun a b => clashes a b = false) (token a) m := by
          intro m hmem
          cases m with
          | blank c => trivial
          | token b =>
            show clashes a b = false
            rw [← Bool.not_eq_true]
            intro hclash
            obtain ⟨c, cs, rfl, htoken⟩ := isToken_of_clashes hclash
            obtain ⟨ms', rfl⟩ : ∃ ms', ms = token (c :: cs) :: ms' := List.head?_eq_some_iff.1 hmem
            exact lex_ne_of_isToken (ne_nil_of_isToken hm) htoken hlex
        have hclosed : Closed a (textOf ms) := closed_textOf hm hrest fun m hmem c hc b hb => by
          subst hb
          rw [← Bool.not_eq_true]
          intro hsticks
          have hclash := hhead _ hmem ⟨c, hc, hsticks⟩
          rw [show clashes a b = false from happ _ hmem] at hclash
          cases hclash
        refine List.isChain_cons.2 ⟨happ, ih hrest htail ?_⟩
        rw [textOf_cons, Mark.text, lex_append hm hclosed] at hlex
        obtain ⟨ts, hts, heq⟩ := Option.map_eq_some_iff.1 hlex
        rw [hts, (List.cons.inj heq).2]
        rfl
  · intro hapart
    refine lex_textOf hvalid (isChain_touch_mono ?_ (isChain_touch_and h hapart))
    rintro a b ⟨hsticks, hclash⟩ hab
    rw [hsticks hab] at hclash
    cases hclash

/-! ## Closing brackets -/

/-- A token of closing brackets as so many brackets, and any other token as it is. -/
def splitClosers (a : Token) : List Token := if a.all (· == '>') then a.map ([·]) else [a]

/-- A symbol that is no number sticks only to what goes on like a longer symbol. -/
theorem sticks_symbol {c : Char} (hidentifier : isIdentifier a = false) (hnumber : isNumber a = false)
    (hperiod : a ≠ ['.']) (h : ∀ s ∈ symbols, a <+: s → (s.drop a.length).head? ≠ some c) : sticks a c = false := by
  rw [sticks_eq_false, hidentifier, hnumber]
  refine ⟨nofun, nofun, fun _ => ⟨fun s hs hbegin => ?_, fun hdot => absurd hdot hperiod⟩⟩
  refine h s hs ((List.prefix_append a [c]).trans hbegin) ?_
  obtain ⟨d, rfl⟩ := hbegin
  simp

theorem sticks_closers {c : Char} (ha : a ∈ [['>'], ['>', '>']]) (h : c ≠ '>') (h' : c ≠ '=') : sticks a c = false := by
  have hplain : ∀ a ∈ [['>'], ['>', '>']], isIdentifier a = false ∧ isNumber a = false ∧ a ≠ ['.'] := by decide
  obtain ⟨hidentifier, hnumber, hperiod⟩ := hplain a ha
  exact sticks_symbol hidentifier hnumber hperiod fun s hs hbegin hc =>
    (next_of_closers ha hs hbegin hc).elim h h'

theorem sticks_three_closers {c : Char} (h : c ≠ '=') : sticks ['>', '>', '>'] c = false :=
  sticks_symbol (by decide) (by decide) (by decide) fun s hs hbegin hc => h (next_of_three_closers hs hbegin hc)

/-- What touches a closing bracket is another one, or begins neither like one nor with an equals sign. -/
theorem next_of_closer {c : Char} (h : Touch (fun a b => Sticks a b → Closers a b) (token ['>']) (token b))
    (hc : c ∈ b.head?) : c ≠ '=' ∧ (c = '>' → b = ['>']) := by
  constructor
  · rintro rfl
    obtain ⟨-, rfl⟩ := h ⟨'=', hc, by decide⟩
    cases hc
  · rintro rfl
    exact (h ⟨'>', hc, by decide⟩).2

theorem exists_lex_append {ts : List Token} (ha : isToken a = true) (hclosed : Closed a (textOf ms))
    (h : ∃ ts', lex (textOf ms) = some ts' ∧ ts'.flatMap splitClosers = ts) :
    ∃ ts', lex (a ++ textOf ms) = some ts' ∧ ts'.flatMap splitClosers = splitClosers a ++ ts := by
  obtain ⟨ts', hts', rfl⟩ := h
  refine ⟨a :: ts', ?_, List.flatMap_cons⟩
  rw [lex_append ha hclosed, hts']
  rfl

/-- **Closing brackets that touch may be read as one token, and all else is read as it is.** -/
theorem exists_lex_closers (hvalid : ∀ m ∈ ms, m.IsValid)
    (h : ms.IsChain (Touch fun a b => Sticks a b → Closers a b)) :
    ∃ ts, lex (textOf ms) = some ts ∧ ts.flatMap splitClosers = (tokens ms).flatMap splitClosers := by
  induction hn : ms.length using Nat.strong_induction_on generalizing ms with
  | _ n ih =>
    subst hn
    cases ms with
    | nil => exact ⟨[], lex_nil, rfl⟩
    | cons m ms =>
      obtain ⟨hhead, htail⟩ := List.isChain_cons.1 h
      have hrest : ∀ m ∈ ms, m.IsValid := fun m hm => hvalid m (List.mem_cons_of_mem _ hm)
      have hm := hvalid m List.mem_cons_self
      cases m with
      | blank c =>
        obtain ⟨ts, hts, hsplit⟩ := ih _ (Nat.lt_succ_self _) hrest htail rfl
        exact ⟨ts, (lex_blank hm).trans hts, hsplit⟩
      | token a =>
        by_cases htwo : a = ['>'] ∧ ∃ ms', ms = token ['>'] :: ms'
        · obtain ⟨rfl, ms, rfl⟩ := htwo
          obtain ⟨hsecond, htail⟩ := List.isChain_cons.1 htail
          have hrest : ∀ m ∈ ms, m.IsValid := fun m hm => hrest m (List.mem_cons_of_mem _ hm)
          by_cases hthree : ∃ ms', ms = token ['>'] :: ms'
          · obtain ⟨ms, rfl⟩ := hthree
            obtain ⟨hthird, htail⟩ := List.isChain_cons.1 htail
            have hrest : ∀ m ∈ ms, m.IsValid := fun m hm => hrest m (List.mem_cons_of_mem _ hm)
            have hclosed : Closed ['>', '>', '>'] (textOf ms) :=
                closed_textOf (by decide) hrest fun m hm c hc b hb => by
              subst hb
              exact sticks_three_closers (next_of_closer (hthird _ hm) hc).1
            exact exists_lex_append (by decide) hclosed (ih ms.length (by simp; omega) hrest htail rfl)
          · have hclosed : Closed ['>', '>'] (textOf ms) := closed_textOf (by decide) hrest fun m hm c hc b hb => by
              subst hb
              obtain ⟨hequals, hcloser⟩ := next_of_closer (hsecond _ hm) hc
              refine sticks_closers (by decide) (fun hc => hthree ?_) hequals
              rw [hcloser hc] at hm
              exact List.head?_eq_some_iff.1 hm
            exact exists_lex_append (by decide) hclosed (ih ms.length (by simp) hrest htail rfl)
        · have hclosed : Closed a (textOf ms) := closed_textOf hm hrest fun m hmem c hc b hb => by
            subst hb
            rw [← Bool.not_eq_true]
            intro hsticks
            obtain ⟨rfl, rfl⟩ := hhead _ hmem ⟨c, hc, hsticks⟩
            exact htwo ⟨rfl, List.head?_eq_some_iff.1 hmem⟩
          exact exists_lex_append hm hclosed (ih _ (Nat.lt_succ_self _) hrest htail rfl)

end UniformAccess.Lexing
