import UniformAccess.Name
import UniformAccess.Spelling
import Mathlib.Data.List.Basic
/-!
# Reading tokens back

A text is read by longest match: blanks are skipped, and what is read next is the longest beginning of the rest that is
a token. Tokens are identifiers, numbers, quoted literals, and the symbols that punctuate or name an operator.

A token is read back as it is if no longer beginning is a token (`lex_append`), which the character after it decides
(`closed_of_not_sticks`).
-/
namespace UniformAccess.Lexing

abbrev Token := List Char

/-! ## Classes of tokens -/

/-- Words: names and keywords. -/
def isIdentifier : Token → Bool
  | [] => false
  | c :: cs => isIdentChar c && !c.isDigit && cs.all isIdentChar

/-- How far a number has been read. -/
inductive Number where
  | start
  /-- Digits only. -/
  | whole
  /-- A period with no digits before it. -/
  | bare
  /-- The period after digits. -/
  | point
  | fraction
  /-- The letter in front of an exponent. -/
  | mark
  | sign
  | power
  /-- Letters: of the radix, or those that give the number its type. -/
  | letters
deriving DecidableEq, Repr

namespace Number

/-- A character after some digits that a period does not end. -/
def digits (s : Number) (c : Char) : Option Number :=
  if c.isDigit || c == '_' then some s
  else if c == 'e' || c == 'E' then some mark
  else if isIdentChar c then some letters
  else none

def step : Number → Char → Option Number
  | start, c => if c.isDigit then some whole else if c == '.' then some bare else none
  | whole, c => if c == '.' then some point else digits whole c
  | bare, c => if c.isDigit then some fraction else none
  | point, c => digits fraction c
  | fraction, c => digits fraction c
  | mark, c => if c.isDigit then some power else if c == '+' || c == '-' then some sign else none
  | sign, c => if c.isDigit then some power else none
  | power, c => if c.isDigit || c == '_' then some power else if isIdentChar c then some letters else none
  | letters, c => if isIdentChar c then some letters else none

/-- Whether what has been read is a number. -/
def accepts : Number → Bool
  | whole | point | fraction | power | letters => true
  | start | bare | mark | sign => false

def read (s : Number) (cs : List Char) : Option Number := cs.foldlM step s

end Number

def isNumber (cs : Token) : Bool := (Number.start.read cs).any Number.accepts

/-- Numbers of digits only, which a period may still follow. -/
def isInteger (cs : Token) : Bool := Number.start.read cs == some .whole

/-- Whether the text ends at the first quote in it that no backslash escapes. -/
def closesQuote (quote : Char) (escaped : Bool) : List Char → Bool
  | [] => false
  | c :: cs =>
    if escaped then closesQuote quote false cs
    else if c = quote then cs.isEmpty
    else closesQuote quote (c == '\\') cs

def isQuoted : Token → Bool
  | [] => false
  | c :: cs => (c == '"' || c == '\'') && closesQuote c false cs

def punctuation : List String :=
  ["(", ")", "[", "]", "\x7b", "\x7d", ";", ",", ".", "...", "@", "::", "->", "?", ":"]

def operators : List String :=
  [AssignOp.plain, .add, .sub, .mul, .div, .rem, .bitAnd, .bitOr, .bitXor, .shl, .shr, .ushr].map AssignOp.text
    ++ [BinaryOp.or, .and, .bitOr, .bitXor, .bitAnd, .eq, .ne, .lt, .gt, .le, .ge, .shl, .shr, .ushr, .add, .sub, .mul,
      .div, .rem].map BinaryOp.text
    ++ [UnaryOp.plus, .neg, .bitNot, .not, .preInc, .preDec, .postInc, .postDec].map UnaryOp.text

def symbols : List Token := (punctuation ++ operators).map String.toList

def isSymbol (cs : Token) : Bool := symbols.contains cs

def isToken (cs : Token) : Bool := isIdentifier cs || isNumber cs || isQuoted cs || isSymbol cs

def brackets : List Char := ['(', ')', '[', ']', '\x7b', '\x7d']

theorem isToken_bracket : ∀ c ∈ brackets, isToken [c] = true :=
  List.all_eq_true.1 (by decide : brackets.all (fun c => isToken [c]) = true)

/-! ## Longest match -/

/-- The longest token that begins with `a` and goes on in the text after it, and the rest of the text. -/
def longest (a : List Char) : List Char → Option (Token × List Char)
  | [] => if isToken a then some (a, []) else none
  | c :: cs => (longest (a ++ [c]) cs).or (if isToken a then some (a, c :: cs) else none)

theorem longest_spec {a cs b rest : List Char} (h : longest a cs = some (b, rest)) :
    ∃ d, b = a ++ d ∧ cs = d ++ rest ∧ isToken b = true := by
  induction cs generalizing a with
  | nil =>
    rw [longest] at h
    split at h
    · rename_i ha
      cases h
      exact ⟨[], (List.append_nil _).symm, rfl, ha⟩
    · cases h
  | cons c cs ih =>
    rw [longest, Option.or_eq_some_iff] at h
    rcases h with h | ⟨-, h⟩
    · obtain ⟨d, rfl, rfl, hb⟩ := ih h
      exact ⟨c :: d, by simp, rfl, hb⟩
    · split at h
      · rename_i ha
        cases h
        exact ⟨[], (List.append_nil _).symm, rfl, ha⟩
      · cases h

def isBlank (c : Char) : Bool := c == ' ' || c == '\n'

/-- **The tokens of a text by longest match**, if all of it can be read. -/
def lex : List Char → Option (List Token)
  | [] => some []
  | c :: cs =>
    if isBlank c then lex cs
    else
      match _ : longest [c] cs with
      | none => none
      | some (a, rest) => (lex rest).map (a :: ·)
termination_by cs => cs.length
decreasing_by
  · exact Nat.lt_succ_self _
  · obtain ⟨d, -, rfl, -⟩ := longest_spec ‹_›
    simp only [List.length_append, List.length_cons]
    omega

@[simp]
theorem lex_nil : lex [] = some [] := by rw [lex]

theorem lex_blank {c : Char} {cs : List Char} (h : isBlank c = true) : lex (c :: cs) = lex cs := by
  rw [lex, if_pos h]

theorem lex_cons {c : Char} {cs : List Char} (h : isBlank c = false) :
    lex (c :: cs) = (longest [c] cs).bind (fun r => (lex r.2).map (r.1 :: ·)) := by
  rw [lex, if_neg (Bool.eq_false_iff.1 h)]
  split
  · rename_i hnone
    rw [hnone]
    rfl
  · rename_i hsome
    rw [hsome]
    rfl

/-- **No longer beginning of the text is a token.** -/
def Closed (a rest : List Char) : Prop := ∀ d, d ≠ [] → d <+: rest → isToken (a ++ d) = false

theorem longest_eq_none {a cs : List Char} (h : ∀ d, d <+: cs → isToken (a ++ d) = false) : longest a cs = none := by
  have ha : isToken a = false := by
    have := h [] List.nil_prefix
    rwa [List.append_nil] at this
  induction cs generalizing a with
  | nil => rw [longest, if_neg (Bool.eq_false_iff.1 ha)]
  | cons c cs ih =>
    have hc : ∀ d, d <+: cs → isToken (a ++ [c] ++ d) = false := fun d hd => by
      rw [List.append_assoc]
      exact h (c :: d) ((List.prefix_cons_inj c).2 hd)
    rw [longest, if_neg (Bool.eq_false_iff.1 ha), Option.or_none]
    refine ih hc ?_
    have := hc [] List.nil_prefix
    rwa [List.append_nil] at this

theorem longest_of_closed {a rest : List Char} (ha : isToken a = true) (h : Closed a rest) :
    longest a rest = some (a, rest) := by
  cases rest with
  | nil => rw [longest, if_pos ha]
  | cons c cs =>
    have hnone : longest (a ++ [c]) cs = none := longest_eq_none fun d hd => by
      rw [List.append_assoc]
      exact h (c :: d) nofun ((List.prefix_cons_inj c).2 hd)
    rw [longest, hnone, if_pos ha, Option.none_or]

theorem longest_append {a d rest : List Char} {r : Token × List Char} (h : longest (a ++ d) rest = some r) :
    longest a (d ++ rest) = some r := by
  induction d generalizing a with
  | nil => rwa [List.append_nil] at h
  | cons c d ih =>
    rw [List.cons_append, longest, ih (by rwa [List.append_assoc]), Option.some_or]

theorem isSome_longest {a : List Char} (ha : isToken a = true) (rest : List Char) : (longest a rest).isSome = true := by
  cases rest <;> simp [longest, ha]

/-! ## What the characters of a token are -/

theorem isIdentChar_of_isDigit {c : Char} (h : c.isDigit = true) : isIdentChar c = true := by
  have hbounds : 48 ≤ c.toNat ∧ c.toNat ≤ 57 := by
    unfold Char.isDigit at h
    rw [Bool.and_eq_true, decide_eq_true_eq, decide_eq_true_eq] at h
    exact ⟨h.1, h.2⟩
  have hranges : Text.alphanumericRanges = (48, 57) :: Text.alphanumericRanges.tail := rfl
  unfold isIdentChar Text.isAlphanumeric
  rw [hranges, Text.inRanges, if_neg (by omega), decide_eq_true hbounds.2]
  rfl

-- Checks over tables run on booleans: deciding `∀ c ∈ cs` may go through all characters there are.

theorem not_isIdentChar_of_mem_symbol : ∀ a ∈ symbols, ∀ c ∈ a, isIdentChar c = false := by
  have hall : symbols.all (·.all (!isIdentChar ·)) = true := by decide
  simpa only [List.all_eq_true, Bool.not_eq_true'] using hall

theorem not_isIdentChar_bracket : ∀ c ∈ brackets, isIdentChar c = false := by
  have hall : brackets.all (!isIdentChar ·) = true := by decide
  simpa only [List.all_eq_true, Bool.not_eq_true'] using hall

theorem not_isBlank_of_mem_symbol : ∀ a ∈ symbols, ∀ c ∈ a, isBlank c = false := by
  have hall : symbols.all (·.all (!isBlank ·)) = true := by decide
  simpa only [List.all_eq_true, Bool.not_eq_true'] using hall

theorem quote_not_mem_symbol : ∀ a ∈ symbols, '"' ∉ a ∧ '\'' ∉ a := by decide

/-- The characters besides those of identifiers that an expression or a statement begins with. -/
def openers : List Char := ['"', '\'', '(', '\x7b', ';', '+', '-', '~', '!', '.']

/-- Whether the check `p` holds of every character that a longer symbol goes on with after `a`. -/
def checkNext (a : Token) (p : Char → Bool) : Bool :=
  symbols.all (fun s => !a.isPrefixOf s || (s.drop a.length).head?.all p)

theorem of_checkNext {a s : Token} {p : Char → Bool} {c : Char} (h : checkNext a p = true) (hs : s ∈ symbols)
    (hbegin : a <+: s) (hc : c ∈ (s.drop a.length).head?) : p c = true := by
  have hcheck := List.all_eq_true.1 h s hs
  rw [List.isPrefixOf_iff_prefix.2 hbegin, Option.mem_def.1 hc] at hcheck
  exact hcheck

/-- A symbol goes on with what begins an operand only from sign to sign. -/
theorem next_of_symbol {a s : Token} {c : Char} (ha : a ∈ symbols) (hperiod : a ≠ ['.']) (hs : s ∈ symbols)
    (hbegin : a <+: s) (hc : c ∈ (s.drop a.length).head?) :
    isIdentChar c = false ∧ (c ∈ openers → a = ['+'] ∧ c = '+' ∨ a = ['-'] ∧ c = '-') := by
  have hall : symbols.all (fun a => a == ['.'] || checkNext a fun c => !isIdentChar c &&
      (!openers.contains c || a == ['+'] && c == '+' || a == ['-'] && c == '-')) = true := by decide +kernel
  have hcheck := List.all_eq_true.1 hall a ha
  rw [beq_eq_false_iff_ne.2 hperiod, Bool.false_or] at hcheck
  have hnext := of_checkNext hcheck hs hbegin hc
  simp only [Bool.and_eq_true, Bool.not_eq_true', Bool.or_eq_true, beq_iff_eq, or_assoc] at hnext
  exact ⟨hnext.1, fun hopener => hnext.2.resolve_left (by rw [List.contains_iff_mem.2 hopener]; exact nofun)⟩

/-- A symbol of closing brackets goes on with another one or with an equals sign. -/
theorem next_of_closers {a s : Token} {c : Char} (ha : a ∈ [['>'], ['>', '>']]) (hs : s ∈ symbols) (hbegin : a <+: s)
    (hc : c ∈ (s.drop a.length).head?) : c = '>' ∨ c = '=' := by
  have hall : [['>'], ['>', '>']].all (checkNext · fun c => c == '>' || c == '=') = true := by decide
  simpa using of_checkNext (List.all_eq_true.1 hall a ha) hs hbegin hc

theorem next_of_three_closers {s : Token} {c : Char} (hs : s ∈ symbols) (hbegin : ['>', '>', '>'] <+: s)
    (hc : c ∈ (s.drop 3).head?) : c = '=' := by
  have hall : checkNext ['>', '>', '>'] (· == '=') = true := by decide
  simpa using of_checkNext hall hs hbegin hc

theorem isIdentChar_head {c : Char} {cs : Token} (h : isIdentifier (c :: cs) = true) :
    isIdentChar c = true ∧ c.isDigit = false ∧ cs.all isIdentChar = true := by
  simpa [isIdentifier, and_assoc] using h

namespace Number

theorem read_append (s : Number) (cs ds : List Char) : s.read (cs ++ ds) = (s.read cs).bind (·.read ds) := by
  unfold read
  rw [List.foldlM_append]
  rfl

theorem read_cons (s : Number) (c : Char) (cs : List Char) : s.read (c :: cs) = (s.step c).bind (·.read cs) := by
  unfold read
  rw [List.foldlM_cons]
  rfl

/-- A number ends before a character that is not of an identifier, a period after digits apart. -/
theorem step_eq_none {s : Number} {c : Char} (hs : s.accepts = true) (hc : isIdentChar c = false)
    (hperiod : s = whole → c ≠ '.') : s.step c = none := by
  have hdigit : c.isDigit = false := by
    rw [← Bool.not_eq_true]
    exact fun hd => by rw [isIdentChar_of_isDigit hd] at hc; cases hc
  have hunderscore : (c == '_') = false := by
    rw [beq_eq_false_iff_ne]
    rintro rfl
    revert hc
    decide
  have hmark : (c == 'e' || c == 'E') = false := by
    rw [Bool.or_eq_false_iff, beq_eq_false_iff_ne, beq_eq_false_iff_ne]
    constructor <;>
    · rintro rfl
      revert hc
      decide
  cases s <;> simp_all [step, digits, accepts]

end Number

theorem exists_isIdentChar_of_isNumber {a : Token} (h : isNumber a = true) : ∃ c ∈ a, isIdentChar c = true := by
  unfold isNumber at h
  cases a with
  | nil => cases h
  | cons c cs =>
    rw [Number.read_cons, Number.step] at h
    split at h
    · rename_i hc
      exact ⟨c, List.mem_cons_self, isIdentChar_of_isDigit hc⟩
    · split at h
      · cases cs with
        | nil => cases h
        | cons d ds =>
          rw [Option.bind_some, Number.read_cons, Number.step] at h
          split at h
          · rename_i hd
            exact ⟨d, by simp, isIdentChar_of_isDigit hd⟩
          · cases h
      · cases h

theorem head_of_isNumber {c : Char} {cs : Token} (h : isNumber (c :: cs) = true) : c.isDigit = true ∨ c = '.' := by
  unfold isNumber at h
  rw [Number.read_cons, Number.step] at h
  split at h
  · exact .inl ‹_›
  · split at h
    · rename_i hc
      exact .inr (beq_iff_eq.1 hc)
    · cases h

theorem head_of_isQuoted {c : Char} {cs : Token} (h : isQuoted (c :: cs) = true) : c = '"' ∨ c = '\'' := by
  rw [isQuoted, Bool.and_eq_true, Bool.or_eq_true, beq_iff_eq, beq_iff_eq] at h
  exact h.1

theorem isSymbol_iff {a : Token} : isSymbol a = true ↔ a ∈ symbols := List.contains_iff_mem

/-- A symbol holds no character of an identifier. -/
theorem isSymbol_eq_false {a : Token} {c : Char} (hc : c ∈ a) (h : isIdentChar c = true) : isSymbol a = false := by
  rw [← Bool.not_eq_true, isSymbol_iff]
  intro ha
  rw [not_isIdentChar_of_mem_symbol a ha c hc] at h
  cases h

/-! ## When a token is closed -/

/-- Whether a token that `c` follows may still go on. -/
def sticks (a : Token) (c : Char) : Bool :=
  isIdentifier a && isIdentChar c
    || isNumber a && (isIdentChar c || isInteger a && c == '.')
    || isSymbol a && (symbols.any (fun s => (a ++ [c]).isPrefixOf s) || a == ['.'] && c.isDigit)

theorem sticks_eq_false {a : Token} {c : Char} : sticks a c = false ↔
    (isIdentifier a = true → isIdentChar c = false) ∧
    (isNumber a = true → isIdentChar c = false ∧ (isInteger a = true → c ≠ '.')) ∧
    (isSymbol a = true → (∀ s ∈ symbols, ¬ a ++ [c] <+: s) ∧ (a = ['.'] → c.isDigit = false)) := by
  simp [sticks, and_assoc]

theorem closesQuote_append {quote : Char} {escaped : Bool} {cs d : List Char}
    (h : closesQuote quote escaped cs = true) (hd : d ≠ []) : closesQuote quote escaped (cs ++ d) = false := by
  induction cs generalizing escaped with
  | nil => cases h
  | cons c cs ih =>
    rw [closesQuote] at h
    rw [List.cons_append, closesQuote]
    split
    · rename_i hesc
      rw [if_pos hesc] at h
      exact ih h
    · rename_i hesc
      rw [if_neg hesc] at h
      split
      · rename_i hquote
        rw [if_pos hquote, List.isEmpty_iff] at h
        rw [h, List.nil_append, List.isEmpty_eq_false_iff]
        exact hd
      · rename_i hquote
        rw [if_neg hquote] at h
        exact ih h

section

variable {a d : Token}

/-- A word goes on only with characters of identifiers. -/
theorem isToken_append_of_isIdentifier {c : Char} (ha : isIdentifier a = true) (hc : isIdentChar c = false) :
    isToken (a ++ c :: d) = false := by
  obtain - | ⟨first, cs⟩ := a
  · cases ha
  obtain ⟨hfirst, hdigit, -⟩ := isIdentChar_head ha
  have hident : isIdentifier (first :: cs ++ c :: d) = false := by
    simp [isIdentifier, hc]
  have hnumber : isNumber (first :: cs ++ c :: d) = false := by
    rw [← Bool.not_eq_true]
    intro h
    rcases head_of_isNumber h with h | rfl
    · rw [hdigit] at h
      cases h
    · revert hfirst
      decide
  have hquoted : isQuoted (first :: cs ++ c :: d) = false := by
    rw [← Bool.not_eq_true]
    intro h
    rcases head_of_isQuoted h with rfl | rfl <;>
    · revert hfirst
      decide
  have hsymbol : isSymbol (first :: cs ++ c :: d) = false := isSymbol_eq_false List.mem_cons_self hfirst
  unfold isToken
  rw [hident, hnumber, hquoted, hsymbol]
  rfl

/-- A number goes on with characters of identifiers, or with a period if it is all digits. -/
theorem isToken_append_of_isNumber {c : Char} (ha : isNumber a = true) (hc : isIdentChar c = false)
    (hperiod : isInteger a = true → c ≠ '.') : isToken (a ++ c :: d) = false := by
  have hnumber : isNumber (a ++ c :: d) = false := by
    unfold isNumber at ha ⊢
    rw [Number.read_append]
    cases hread : Number.start.read a with
    | none => rfl
    | some s =>
      rw [hread] at ha
      have hstep : s.step c = none := Number.step_eq_none ha hc fun hs => hperiod (by
        unfold isInteger
        rw [hread, hs]
        rfl)
      rw [Option.bind_some, Number.read_cons, hstep]
      rfl
  obtain ⟨e, he, hident⟩ := exists_isIdentChar_of_isNumber ha
  have hsymbol : isSymbol (a ++ c :: d) = false := isSymbol_eq_false (List.mem_append_left _ he) hident
  obtain - | ⟨first, cs⟩ := a
  · cases ha
  have hfirst := head_of_isNumber ha
  have hidentifier : isIdentifier (first :: cs ++ c :: d) = false := by
    rw [← Bool.not_eq_true]
    intro h
    obtain ⟨hident, hdigit, -⟩ := isIdentChar_head h
    rcases hfirst with h | rfl
    · rw [hdigit] at h
      cases h
    · revert hident
      decide
  have hquoted : isQuoted (first :: cs ++ c :: d) = false := by
    rw [← Bool.not_eq_true]
    intro h
    rcases head_of_isQuoted h with rfl | rfl <;>
    · revert hfirst
      decide
  unfold isToken
  rw [hidentifier, hnumber, hquoted, hsymbol]
  rfl

/-- Nothing follows the closing quote. -/
theorem isToken_append_of_isQuoted (ha : isQuoted a = true) (hd : d ≠ []) : isToken (a ++ d) = false := by
  obtain - | ⟨quote, cs⟩ := a
  · cases ha
  have hquoted : isQuoted (quote :: cs ++ d) = false := by
    rw [isQuoted, Bool.and_eq_true] at ha
    rw [List.cons_append, isQuoted, closesQuote_append ha.2 hd, Bool.and_false]
  have hidentifier : isIdentifier (quote :: cs ++ d) = false := by
    rw [← Bool.not_eq_true]
    intro h
    have hident := (isIdentChar_head h).1
    rcases head_of_isQuoted ha with rfl | rfl <;>
    · revert hident
      decide
  have hnumber : isNumber (quote :: cs ++ d) = false := by
    rw [← Bool.not_eq_true]
    intro h
    have hdigit := head_of_isNumber h
    rcases head_of_isQuoted ha with rfl | rfl <;>
    · revert hdigit
      decide
  have hsymbol : isSymbol (quote :: cs ++ d) = false := by
    rw [← Bool.not_eq_true, isSymbol_iff]
    intro h
    rcases head_of_isQuoted ha with rfl | rfl
    · exact (quote_not_mem_symbol _ h).1 List.mem_cons_self
    · exact (quote_not_mem_symbol _ h).2 List.mem_cons_self
  unfold isToken
  rw [hidentifier, hnumber, hquoted, hsymbol]
  rfl

/-- A symbol goes on if a longer symbol begins like that, and a period with digits. -/
theorem isToken_append_of_isSymbol {c : Char} (ha : isSymbol a = true) (hc : sticks a c = false) :
    isToken (a ++ c :: d) = false := by
  have hsticks := (sticks_eq_false.1 hc).2.2 ha
  rw [isSymbol_iff] at ha
  have hsymbol : isSymbol (a ++ c :: d) = false := by
    rw [← Bool.not_eq_true, isSymbol_iff]
    intro h
    exact hsticks.1 _ h ⟨d, by simp⟩
  have hheads : ∀ s ∈ symbols, s ≠ [] ∧ (s.head? = some '.' → s = ['.'] ∨ s = ['.', '.', '.']) := by decide
  obtain - | ⟨first, cs⟩ := a
  · exact absurd rfl (hheads _ ha).1
  have hident := not_isIdentChar_of_mem_symbol _ ha first List.mem_cons_self
  have hidentifier : isIdentifier (first :: cs ++ c :: d) = false := by
    rw [List.cons_append, isIdentifier, hident]
    rfl
  have hquoted : isQuoted (first :: cs ++ c :: d) = false := by
    rw [← Bool.not_eq_true]
    intro h
    rcases head_of_isQuoted h with rfl | rfl
    · exact (quote_not_mem_symbol _ ha).1 List.mem_cons_self
    · exact (quote_not_mem_symbol _ ha).2 List.mem_cons_self
  have hnumber : isNumber (first :: cs ++ c :: d) = false := by
    rw [← Bool.not_eq_true]
    intro h
    rcases head_of_isNumber h with hdigit | rfl
    · rw [isIdentChar_of_isDigit hdigit] at hident
      cases hident
    · rcases (hheads _ ha).2 rfl with heq | heq
      · rw [heq] at h
        simp [isNumber, Number.read_cons, Number.step, hsticks.2 heq] at h
      · rw [heq] at h
        simp [isNumber, Number.read_cons, Number.step] at h
  unfold isToken
  rw [hidentifier, hnumber, hquoted, hsymbol]
  rfl

/-- **The character after a token decides whether it is read to its end.** -/
theorem closed_of_not_sticks {rest : List Char} (ha : isToken a = true) (h : ∀ c ∈ rest.head?, sticks a c = false) :
    Closed a rest := by
  intro d hd hbegin
  obtain - | ⟨c, d⟩ := d
  · exact absurd rfl hd
  obtain ⟨tail, rfl⟩ := hbegin
  have hc := h c rfl
  obtain ⟨hidentifier, hnumber, -⟩ := sticks_eq_false.1 hc
  unfold isToken at ha
  rw [Bool.or_eq_true, Bool.or_eq_true, Bool.or_eq_true] at ha
  rcases ha with ((ha | ha) | ha) | ha
  · exact isToken_append_of_isIdentifier ha (hidentifier ha)
  · exact isToken_append_of_isNumber ha (hnumber ha).1 (hnumber ha).2
  · exact isToken_append_of_isQuoted ha nofun
  · exact isToken_append_of_isSymbol ha hc

theorem not_isBlank_of_isToken {c : Char} {cs : Token} (h : isToken (c :: cs) = true) : isBlank c = false := by
  rw [← Bool.not_eq_true]
  intro hblank
  have hc : c = ' ' ∨ c = '\n' := by simpa [isBlank] using hblank
  have hnot : isIdentChar c = false ∧ c.isDigit = false ∧ c ≠ '.' ∧ c ≠ '"' ∧ c ≠ '\'' := by
    rcases hc with rfl | rfl <;> decide
  unfold isToken at h
  rw [Bool.or_eq_true, Bool.or_eq_true, Bool.or_eq_true] at h
  rcases h with ((h | h) | h) | h
  · rw [isIdentifier, hnot.1] at h
    cases h
  · rcases head_of_isNumber h with hdigit | hperiod
    · rw [hnot.2.1] at hdigit
      cases hdigit
    · exact hnot.2.2.1 hperiod
  · exact (head_of_isQuoted h).elim hnot.2.2.2.1 hnot.2.2.2.2
  · rw [not_isBlank_of_mem_symbol _ (isSymbol_iff.1 h) c List.mem_cons_self] at hblank
    cases hblank

theorem ne_nil_of_isToken (h : isToken a = true) : a ≠ [] := by
  rintro rfl
  revert h
  decide

/-- **A closed token is read as it is.** -/
theorem lex_append {rest : List Char} (ha : isToken a = true) (h : Closed a rest) :
    lex (a ++ rest) = (lex rest).map (a :: ·) := by
  obtain - | ⟨c, cs⟩ := a
  · exact absurd rfl (ne_nil_of_isToken ha)
  have hlongest : longest [c] (cs ++ rest) = some (c :: cs, rest) := longest_append (longest_of_closed ha h)
  rw [List.cons_append, lex_cons (not_isBlank_of_isToken ha), hlongest]
  rfl

/-- **A token that is also the beginning of a longer one is not read as it is.** -/
theorem lex_ne_of_isToken {c : Char} {rest : List Char} {ts : List Token} (ha : a ≠ [])
    (h : isToken (a ++ [c]) = true) : lex (a ++ c :: rest) ≠ some (a :: ts) := by
  obtain - | ⟨first, cs⟩ := a
  · exact absurd rfl ha
  obtain ⟨⟨b, rest'⟩, hlongest⟩ := Option.isSome_iff_exists.1 (isSome_longest h rest)
  have hb := hlongest
  obtain ⟨d, rfl, -, -⟩ := longest_spec hb
  have hread : longest [first] (cs ++ c :: rest) = some (first :: cs ++ [c] ++ d, rest') := by
    have := longest_append (a := [first]) (d := cs ++ [c]) hlongest
    rwa [List.append_assoc] at this
  rw [List.cons_append] at h
  rw [List.cons_append, lex_cons (not_isBlank_of_isToken h), hread, Option.bind_some]
  intro heq
  obtain ⟨ts', -, hts⟩ := Option.map_eq_some_iff.1 heq
  have := congrArg List.length (List.cons.inj hts).1
  simp at this

end

end UniformAccess.Lexing
