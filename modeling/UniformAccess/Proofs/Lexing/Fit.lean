import UniformAccess.Proofs.Lexing.Page
import UniformAccess.Proofs.Printing.Events
/-!
# Tokens that fit

One token fits after another if they do not stick, or if the pen keeps them apart, or if they are of the few pairs that
may be misread: signs, digits before a period, and closing brackets. What fits after a token depends on how expressions
end and begin: a word or a closing bracket settles that the token is over (`Settled`), a literal is over before any
symbol (`EndsExpr`), and an operator is over before an operand (`Opens`).

A list of items reads well if its tokens fit one after the other (`Script.Reads`).
-/
namespace UniformAccess

namespace Lexing

variable {a b : Token}

/-- `b` may follow `a` in an expression. -/
def Fits (a b : Token) : Prop := Sticks a b → Joined a b ∨ clashes a b = true ∨ Closers a b

/-! ## How tokens end and begin -/

/-- Whether no symbol is longer than this one and begins with it; a period may begin a number. -/
def isFinal (a : Token) : Bool := isSymbol a && a != ['.'] && symbols.all (fun s => !a.isPrefixOf s || s == a)

/-- Nothing that follows changes where the token ends, unless the pen keeps it apart. -/
def Settled (a : Token) : Prop := isIdentifier a = true ∨ isFinal a = true

/-- How an expression ends. -/
def EndsExpr (a : Token) : Prop := Settled a ∨ isNumber a = true ∨ isQuoted a = true

/-- How a type ends. -/
def EndsType (a : Token) : Prop := Settled a ∨ a = ['>']

/-- How an expression or a statement begins. -/
def Opens (b : Token) : Prop := ∃ c ∈ b.head?, isIdentChar c = true ∨ c ∈ openers

instance : DecidablePred Opens
  | [] => isFalse nofun
  | c :: _ => decidable_of_iff (isIdentChar c = true ∨ c ∈ openers)
    ⟨fun h => ⟨c, rfl, h⟩, fun ⟨_, hc, h⟩ => Option.some.inj hc ▸ h⟩

theorem isNumber_of_isIdentifier (h : isIdentifier a = true) : isNumber a = false := by
  obtain - | ⟨c, cs⟩ := a
  · cases h
  obtain ⟨hc, hdigit, -⟩ := isIdentChar_head h
  rw [← Bool.not_eq_true]
  intro hnumber
  rcases head_of_isNumber hnumber with h | rfl
  · rw [hdigit] at h
    cases h
  · revert hc
    decide

theorem isSymbol_of_isIdentifier (h : isIdentifier a = true) : isSymbol a = false := by
  obtain - | ⟨c, cs⟩ := a
  · cases h
  exact isSymbol_eq_false List.mem_cons_self (isIdentChar_head h).1

theorem isIdentifier_of_isNumber (h : isNumber a = true) : isIdentifier a = false := by
  rw [← Bool.not_eq_true]
  intro hident
  rw [isNumber_of_isIdentifier hident] at h
  cases h

theorem isSymbol_of_isNumber (h : isNumber a = true) : isSymbol a = false := by
  obtain ⟨c, hc, hident⟩ := exists_isIdentChar_of_isNumber h
  exact isSymbol_eq_false hc hident

theorem isIdentifier_of_isSymbol (h : isSymbol a = true) : isIdentifier a = false := by
  rw [← Bool.not_eq_true]
  intro hident
  rw [isSymbol_of_isIdentifier hident] at h
  cases h

theorem isNumber_of_isSymbol (h : isSymbol a = true) : isNumber a = false := by
  rw [← Bool.not_eq_true]
  intro hnumber
  rw [isSymbol_of_isNumber hnumber] at h
  cases h

theorem isIdentChar_getLast? (h : isIdentifier a = true) : a.getLast?.any isIdentChar = true := by
  obtain - | ⟨c, cs⟩ := a
  · cases h
  obtain ⟨hc, -, hcs⟩ := isIdentChar_head h
  have hall : ∀ d ∈ c :: cs, isIdentChar d = true := List.forall_mem_cons.2 ⟨hc, List.all_eq_true.1 hcs⟩
  rw [List.getLast?_eq_some_getLast (List.cons_ne_nil c cs), Option.any_some]
  exact hall _ (List.getLast_mem _)

/-! ## What fits -/

/-- **Anything fits after a word or a symbol that cannot go on.** -/
theorem Settled.fits (h : Settled a) (b : Token) : Fits a b := by
  rintro ⟨c, hc, hsticks⟩
  rcases h with h | h
  · refine .inl ⟨isIdentChar_getLast? h, ?_⟩
    rw [Option.mem_def.1 hc, Option.any_some, ← Bool.not_eq_false]
    intro hident
    have hnot : sticks a c = false := by
      rw [sticks_eq_false, isNumber_of_isIdentifier h, isSymbol_of_isIdentifier h]
      exact ⟨fun _ => hident, nofun, nofun⟩
    rw [hnot] at hsticks
    cases hsticks
  · simp only [isFinal, Bool.and_eq_true, bne_iff_ne, List.all_eq_true, Bool.or_eq_true, Bool.not_eq_true',
      beq_iff_eq] at h
    obtain ⟨⟨hsymbol, hperiod⟩, hfinal⟩ := h
    rw [sticks_symbol (isIdentifier_of_isSymbol hsymbol) (isNumber_of_isSymbol hsymbol) hperiod] at hsticks
    · cases hsticks
    · intro s hs hbegin
      rcases hfinal s hs with hnot | rfl
      · rw [List.isPrefixOf_iff_prefix.2 hbegin] at hnot
        cases hnot
      · simp

/-- **A symbol fits after an expression.** -/
theorem EndsExpr.fits (h : EndsExpr a) (hb : isSymbol b = true) : Fits a b := by
  rcases h with h | h | h
  · exact h.fits b
  · rintro ⟨c, hc, hsticks⟩
    have hident : isIdentChar c = false := not_isIdentChar_of_mem_symbol b (isSymbol_iff.1 hb) c (List.mem_of_head? hc)
    have hinteger : isInteger a = true ∧ c = '.' := by
      have := hsticks
      rw [sticks, isIdentifier_of_isNumber h, isSymbol_of_isNumber h, hident, h] at this
      simpa using this
    refine .inr (.inl ?_)
    rw [clashes, hinteger.1, Option.mem_def.1 hc, hinteger.2]
    simp
  · rintro ⟨c, -, hsticks⟩
    obtain - | ⟨quote, cs⟩ := a
    · cases h
    have hquote := head_of_isQuoted h
    have hidentifier : isIdentifier (quote :: cs) = false := by
      rw [isIdentifier]
      rcases hquote with rfl | rfl
      · rfl
      · rfl
    have hnumber : isNumber (quote :: cs) = false := by
      rw [isNumber, Number.read_cons]
      rcases hquote with rfl | rfl
      · rfl
      · rfl
    have hsymbol : isSymbol (quote :: cs) = false := by
      rw [← Bool.not_eq_true, isSymbol_iff]
      intro hs
      rcases hquote with rfl | rfl
      · exact (quote_not_mem_symbol _ hs).1 List.mem_cons_self
      · exact (quote_not_mem_symbol _ hs).2 List.mem_cons_self
    rw [sticks, hidentifier, hnumber, hsymbol] at hsticks
    cases hsticks

/-- **An operand fits after a symbol.** -/
theorem Opens.fits (ha : isSymbol a = true) (hperiod : a ≠ ['.']) (hb : Opens b) : Fits a b := by
  obtain ⟨c, hc, hopens⟩ := hb
  rintro ⟨d, hd, hsticks⟩
  obtain rfl : c = d := Option.some.inj (hc.symm.trans hd)
  by_contra hnot
  rw [sticks_symbol (isIdentifier_of_isSymbol ha) (isNumber_of_isSymbol ha) hperiod] at hsticks
  · cases hsticks
  · intro s hs hbegin hnext
    obtain ⟨hident, hsign⟩ := next_of_symbol (isSymbol_iff.1 ha) hperiod hs hbegin hnext
    rw [hident] at hopens
    refine hnot (.inr (.inl ?_))
    rw [clashes, Option.mem_def.1 hc]
    rcases hsign (hopens.resolve_left Bool.false_ne_true) with ⟨rfl, rfl⟩ | ⟨rfl, rfl⟩
    · rfl
    · rfl

/-- **A name fits after a period.** -/
theorem fits_period (hb : isIdentifier b = true) : Fits ['.'] b := by
  rintro ⟨c, hc, hsticks⟩
  obtain - | ⟨d, cs⟩ := b
  · cases hb
  obtain rfl : d = c := Option.some.inj hc
  obtain ⟨hident, hdigit, -⟩ := isIdentChar_head hb
  have hnot : sticks ['.'] d = false := by
    rw [sticks_eq_false]
    refine ⟨nofun, nofun, fun _ => ⟨fun s hs hbegin => ?_, fun _ => hdigit⟩⟩
    rw [not_isIdentChar_of_mem_symbol s hs d (hbegin.subset (by simp))] at hident
    cases hident
  rw [hnot] at hsticks
  cases hsticks

/-- Whether the token begins neither with an equals sign nor like a longer symbol of closing brackets. -/
def followsType (b : Token) : Bool := b.head? != some '=' && (b.head? != some '>' || b == ['>'])

/-- **What follows a type fits after it.** -/
theorem EndsType.fits (h : EndsType a) (hb : followsType b = true) : Fits a b := by
  rcases h with h | rfl
  · exact h.fits b
  · rintro ⟨c, hc, hsticks⟩
    rw [followsType, Option.mem_def.1 hc] at hb
    simp only [Bool.and_eq_true, Bool.or_eq_true, bne_iff_ne, ne_eq, Option.some.injEq, beq_iff_eq] at hb
    by_cases hgt : c = '>'
    · exact .inr (.inr ⟨rfl, hb.2.resolve_left (absurd hgt)⟩)
    · rw [sticks_closers (by decide) hgt hb.1] at hsticks
      cases hsticks

theorem followsType_of_isIdentifier (h : isIdentifier b = true) : followsType b = true := by
  obtain - | ⟨c, cs⟩ := b
  · cases h
  have hident := (isIdentChar_head h).1
  have hnot : ∀ d, isIdentChar d = false → (some c != some d) = true := fun d hd => by
    rw [bne_iff_ne]
    rintro heq
    cases heq
    rw [hd] at hident
    cases hident
  rw [followsType, List.head?_cons, hnot '=' (by decide), hnot '>' (by decide)]
  rfl

end Lexing

open Lexing

/-! ## Items that read well -/

namespace Script

/-- The tokens that some items write. -/
def tokens (t : Tree) (items : List Item) : List Token := (t.eventsOf items).flatMap Event.tokens

/-- **The items write tokens that fit**, from one that begins like `first` to one that ends like `last`. -/
structure Reads (t : Tree) (first last : Token → Prop) (items : List Item) : Prop where
  spelled : ∀ s, .stroke s ∈ t.eventsOf items → ∀ text ∈ s.text?, Spelled text
  chain : (tokens t items).IsChain Fits
  head : ∃ a ∈ (tokens t items).head?, first a
  last : ∃ a ∈ (tokens t items).getLast?, last a

/-- A text that is written as one token. -/
structure Single (text : String) : Prop where
  spelled : Spelled text
  tokens : tokensIn text.toList = [text.toList]

instance (text : String) : Decidable (Single text) :=
  decidable_of_iff ((text.toList.all brackets.contains = true ∨ isToken text.toList = true) ∧
    tokensIn text.toList = [text.toList]) ⟨fun h => ⟨h.1, h.2⟩, fun h => ⟨h.1, h.2⟩⟩

/-- A symbol that stands in front of an operand. -/
structure IsOperator (text : String) : Prop where
  single : Single text
  isSymbol : isSymbol text.toList = true
  ne_period : text.toList ≠ ['.']

instance (text : String) : Decidable (IsOperator text) :=
  decidable_of_iff (Single text ∧ Lexing.isSymbol text.toList = true ∧ text.toList ≠ ['.'])
    ⟨fun h => ⟨h.1, h.2.1, h.2.2⟩, fun h => ⟨h.1, h.2, h.3⟩⟩

theorem single_of_head {text : String} (h : isToken text.toList = true) (hhead : ∃ c ∈ text.toList, c ∉ brackets) :
    Single text := by
  refine ⟨.inr h, if_neg ?_⟩
  obtain ⟨c, hc, hbracket⟩ := hhead
  rw [List.all_eq_true]
  exact fun hall => hbracket (List.contains_iff_mem.1 (hall c hc))

theorem single_of_isIdentifier {text : String} (h : isIdentifier text.toList = true) : Single text := by
  refine single_of_head (by rw [isToken, h]; rfl) ?_
  cases hcs : text.toList with
  | nil => rw [hcs] at h; cases h
  | cons c cs =>
    rw [hcs] at h
    refine ⟨c, List.mem_cons_self, fun hc => ?_⟩
    have hident := (isIdentChar_head h).1
    rw [not_isIdentChar_bracket c hc] at hident
    cases hident

variable {t : Tree} {first last first' last' : Token → Prop} {items items' : List Item}

@[simp]
theorem tokens_append (items items' : List Item) : tokens t (items ++ items') = tokens t items ++ tokens t items' := by
  unfold tokens
  rw [Tree.eventsOf_append, List.flatMap_append]

namespace Reads

theorem mono (h : Reads t first last items) (hfirst : ∀ a, first a → first' a) (hlast : ∀ a, last a → last' a) :
    Reads t first' last' items := by
  obtain ⟨a, ha, hfa⟩ := h.head
  obtain ⟨b, hb, hlb⟩ := h.last
  exact ⟨h.spelled, h.chain, ⟨a, ha, hfirst a hfa⟩, ⟨b, hb, hlast b hlb⟩⟩

/-- **Items read well after others if the tokens fit where they meet.** -/
theorem append (h : Reads t first last items) (h' : Reads t first' last' items')
    (hfits : ∀ a b, last a → first' b → Fits a b) : Reads t first last' (items ++ items') := by
  obtain ⟨a, ha, hfa⟩ := h.head
  obtain ⟨b, hb, hlb⟩ := h.last
  obtain ⟨a', ha', hfa'⟩ := h'.head
  obtain ⟨b', hb', hlb'⟩ := h'.last
  have hne : tokens t items ≠ [] := by rintro hnil; rw [hnil] at ha; cases ha
  have hne' : tokens t items' ≠ [] := by rintro hnil; rw [hnil] at ha'; cases ha'
  refine ⟨fun s hs => ?_, ?_, ⟨a, ?_, hfa⟩, ⟨b', ?_, hlb'⟩⟩
  · rw [Tree.eventsOf_append, List.mem_append] at hs
    exact hs.elim (h.spelled s) (h'.spelled s)
  · rw [tokens_append]
    refine h.chain.append h'.chain fun c hc d hd => ?_
    obtain rfl : b = c := Option.some.inj (hb.symm.trans hc)
    obtain rfl : a' = d := Option.some.inj (ha'.symm.trans hd)
    exact hfits b a' hlb hfa'
  · rw [tokens_append, List.head?_append_of_ne_nil _ hne]
    exact ha
  · rw [tokens_append, List.getLast?_append_of_ne_nil _ hne']
    exact hb'

/-- What other items write does not matter if it is the same tokens. -/
theorem of_tokens (h : Reads t first last items)
    (hspelled : ∀ s, .stroke s ∈ t.eventsOf items' → ∀ text ∈ s.text?, Spelled text)
    (htokens : tokens t items' = tokens t items) : Reads t first last items' :=
  ⟨hspelled, htokens ▸ h.chain, htokens ▸ h.head, htokens ▸ h.last⟩

/-- Items that write nothing do not matter. -/
theorem quiet_append (silent : List Item) (hsilent : ∀ item ∈ silent, ∃ s, item = .stroke s ∧ s.text? = none)
    (h : Reads t first last items) : Reads t first last (silent ++ items) := by
  have hstrokes : ∀ e ∈ t.eventsOf silent, ∃ s, e = .stroke s ∧ s.text? = none := fun e he => by
    obtain ⟨item, hitem, he⟩ := List.mem_flatMap.1 he
    obtain ⟨s, rfl, htext⟩ := hsilent item hitem
    exact ⟨s, List.mem_singleton.1 he, htext⟩
  have hnil : tokens t silent = [] := List.flatMap_eq_nil_iff.2 fun e he => by
    obtain ⟨s, rfl, htext⟩ := hstrokes e he
    rw [Event.tokens, Stroke.tokens, htext]
    rfl
  refine h.of_tokens (fun s hs text htext => ?_) (by rw [tokens_append, hnil, List.nil_append])
  rw [Tree.eventsOf_append, List.mem_append] at hs
  rcases hs with hs | hs
  · obtain ⟨s', heq, hnone⟩ := hstrokes _ hs
    cases heq
    rw [hnone] at htext
    cases htext
  · exact h.spelled s hs text htext

theorem sep_append (next : Option Pos) (h : Reads t first last items) : Reads t first last (sep next ++ items) :=
  quiet_append (sep next) (fun _ hitem => ⟨_, List.mem_singleton.1 hitem, rfl⟩) h

theorem goto_cons (target : Option Pos) (h : Reads t first last items) :
    Reads t first last (.stroke (.goto target) :: items) :=
  quiet_append [.stroke (.goto target)] (fun _ hitem => ⟨_, List.mem_singleton.1 hitem, rfl⟩) h

theorem stroke {s : Stroke} {text : String} (htext : s.text? = some text) (h : Single text) :
    Reads t (· = text.toList) (· = text.toList) [.stroke s] := by
  have htokens : tokens t [.stroke s] = [text.toList] := by
    show s.tokens ++ [] = _
    rw [List.append_nil, Stroke.tokens, htext, Option.toList_some, List.flatMap_singleton, h.tokens]
  refine ⟨fun s' hs text' htext' => ?_, ?_, ?_, ?_⟩
  · cases List.mem_singleton.1 hs
    rw [htext] at htext'
    cases htext'
    exact h.spelled
  · rw [htokens]
    exact .singleton _
  · rw [htokens]
    exact ⟨_, rfl, rfl⟩
  · rw [htokens]
    exact ⟨_, rfl, rfl⟩

theorem write {text : String} (h : Single text) : Reads t (· = text.toList) (· = text.toList) (Script.write text) :=
  stroke rfl h

theorem glue {g : Glue} (h : Single g.token) (prev next : Option Pos) :
    Reads t (· = g.token.toList) (· = g.token.toList) (Script.glue g prev next) := stroke rfl h

theorem writeAt {text : String} (h : Single text) (target : Option Pos) :
    Reads t (· = text.toList) (· = text.toList) (Script.writeAt text target) :=
  goto_cons target (write h)

/-! ### Lists of children -/

/-- A list after its first child. -/
theorem listAfter (hlast : ∀ a, last a → Fits a [',']) :
    ∀ {ids : List NodeId} {items : List Item} (prev : NodeId), Reads t first last items →
      (∀ id ∈ ids, Reads t first' last [.child id]) → Reads t first last (items ++ Script.listAfter t prev ids)
  | [], items, _, h, _ => by
    rw [Script.listAfter, List.append_nil]
    exact h
  | id :: ids, items, prev, h, hids => by
    have hsplit : items ++ Script.listAfter t prev (id :: ids) =
        items ++ (Script.glue ⟨false, ",", true⟩ (t.stop? prev) (t.start? id) ++ [Item.child id]) ++
          Script.listAfter t id ids := by
      simp [Script.listAfter]
    rw [hsplit]
    refine listAfter hlast id ?_ fun id hid => hids id (List.mem_cons_of_mem _ hid)
    refine h.append ((glue (by decide) _ _).append (hids id List.mem_cons_self) ?_) ?_
    · rintro _ b rfl -
      exact Settled.fits (.inr (by decide)) b
    · rintro a _ ha rfl
      exact hlast a ha

theorem list {ids : List NodeId} (hne : ids ≠ []) (hlast : ∀ a, last a → Fits a [','])
    (hids : ∀ id ∈ ids, Reads t first last [.child id]) : Reads t first last (Script.list t ids) := by
  cases ids with
  | nil => exact absurd rfl hne
  | cons id ids =>
    show Reads t first last ([Item.child id] ++ Script.listAfter t id ids)
    exact listAfter hlast id (hids id List.mem_cons_self) fun id hid => hids id (List.mem_cons_of_mem _ hid)

/-- Statements one after the other. -/
theorem append_separatedAll : ∀ {ids : List NodeId} {items : List Item}, Reads t first Settled items →
    (∀ id ∈ ids, Reads t first' Settled [.child id]) → Reads t first Settled (items ++ separatedAll t ids)
  | [], items, h, _ => by
    rw [separatedAll, List.flatMap_nil, List.append_nil]
    exact h
  | id :: ids, items, h, hids => by
    have hsplit : items ++ separatedAll t (id :: ids) = items ++ separated t id ++ separatedAll t ids := by
      simp [separatedAll]
    rw [hsplit]
    refine append_separatedAll ?_ fun id hid => hids id (List.mem_cons_of_mem _ hid)
    exact h.append (sep_append _ (hids id List.mem_cons_self)) fun a b ha _ => ha.fits b

end Reads

end Script

end UniformAccess
