/-!
# Positions in source text

Lines and columns count from one, and a column counts characters. A span runs up to, and not including, the position
where it stops. A node that was not written by hand has no position at all: its location is synthetic.

Coordinates have no bound, and neither has what is added to them (the length of a text, an indentation). Only a position
that is moved is kept between one and `Pos.maxCoordinate`, the largest number of 32 bits.
-/
namespace UniformAccess

/-! ## Positions -/

@[ext]
structure Pos where
  line : Nat
  col : Nat
deriving DecidableEq, Repr

namespace Pos

/-- Positions are ordered as text is read: by line, then by column. -/
instance : LT Pos := ⟨fun p q => p.line < q.line ∨ p.line = q.line ∧ p.col < q.col⟩

instance : LE Pos := ⟨fun p q => p.line < q.line ∨ p.line = q.line ∧ p.col ≤ q.col⟩

instance (p q : Pos) : Decidable (p < q) :=
  inferInstanceAs (Decidable (p.line < q.line ∨ p.line = q.line ∧ p.col < q.col))

instance (p q : Pos) : Decidable (p ≤ q) :=
  inferInstanceAs (Decidable (p.line < q.line ∨ p.line = q.line ∧ p.col ≤ q.col))

theorem lt_def (p q : Pos) : p < q ↔ p.line < q.line ∨ p.line = q.line ∧ p.col < q.col := Iff.rfl

theorem le_def (p q : Pos) : p ≤ q ↔ p.line < q.line ∨ p.line = q.line ∧ p.col ≤ q.col := Iff.rfl

def compare (p q : Pos) : Ordering := if p < q then .lt else if p = q then .eq else .gt

/-- The later of two positions. -/
def later (p q : Pos) : Pos := if p ≤ q then q else p

/-- The latest of some positions. -/
def latest? : List Pos → Option Pos
  | [] => none
  | p :: rest => some (rest.foldl later p)

def text (p : Pos) : String := "L" ++ toString p.line ++ ":" ++ toString p.col

/-- The position `n` columns to the right. -/
def right (p : Pos) (n : Nat) : Pos := { p with col := p.col + n }

/-- The largest line and column that a moved position can have. -/
def maxCoordinate : Nat := 4294967295

/-- The coordinate nearest to `v`, between one and the largest. -/
def clamp (v : Int) : Nat := (max 1 (min v maxCoordinate)).toNat

/-- The position moved down by `lines` and to the right by `cols`, either of which may be negative. It never leaves
the range of coordinates. -/
def shifted (p : Pos) (lines cols : Int) : Pos := ⟨clamp (p.line + lines), clamp (p.col + cols)⟩

end Pos

/-! ## Spans -/

@[ext]
structure Span where
  start : Pos
  stop : Pos
deriving DecidableEq, Repr

namespace Span

def text (s : Span) : String := s.start.text ++ "-" ++ s.stop.text

def point (p : Pos) : Span := ⟨p, p⟩

/-- The span of `n` columns that starts at `p`. -/
def ofLength (p : Pos) (n : Nat) : Span := ⟨p, p.right n⟩

def shifted (s : Span) (lines cols : Int) : Span := ⟨s.start.shifted lines cols, s.stop.shifted lines cols⟩

end Span

/-! ## Locations -/

inductive Loc where
  | synthetic
  | span (s : Span)
deriving DecidableEq, Repr, Inhabited

namespace Loc

def text : Loc → String
  | synthetic => "<synthetic>"
  | span s => s.text

def point (p : Pos) : Loc := span (.point p)

def isSynthetic : Loc → Bool
  | synthetic => true
  | span _ => false

def span? : Loc → Option Span
  | synthetic => none
  | span s => some s

def start? (l : Loc) : Option Pos := l.span?.map (·.start)

def stop? (l : Loc) : Option Pos := l.span?.map (·.stop)

@[simp]
theorem start?_synthetic : synthetic.start? = none := rfl

@[simp]
theorem stop?_synthetic : synthetic.stop? = none := rfl

@[simp]
theorem start?_span (s : Span) : (span s).start? = some s.start := rfl

@[simp]
theorem stop?_span (s : Span) : (span s).stop? = some s.stop := rfl

@[simp]
theorem start?_point (p : Pos) : (point p).start? = some p := rfl

@[simp]
theorem stop?_point (p : Pos) : (point p).stop? = some p := rfl

def shifted (l : Loc) (lines cols : Int) : Loc :=
  match l with
  | synthetic => synthetic
  | span s => span (s.shifted lines cols)

/-- The location with each of its two positions that lies after `p` moved down by `lines`. -/
def shiftedAfter (l : Loc) (p : Pos) (lines : Int) : Loc :=
  match l with
  | synthetic => synthetic
  | span s =>
    span ⟨if p < s.start then s.start.shifted lines 0 else s.start,
      if p < s.stop then s.stop.shifted lines 0 else s.stop⟩

/-- The location from one position to another: a point if only the first is known, synthetic without the first. -/
def between : Option Pos → Option Pos → Loc
  | some start, some stop => span ⟨start, stop⟩
  | some start, none => point start
  | none, _ => synthetic

end Loc

end UniformAccess
