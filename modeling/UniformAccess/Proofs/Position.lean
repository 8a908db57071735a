import Mathlib
import UniformAccess.Position
/-!
# The order of positions, and moving them

Positions are ordered as text is read. Where room was made in a text, a position moves down by the room at or before it
(`Room.move`), and that keeps the order of positions.
-/
namespace UniformAccess

namespace Pos

instance : LinearOrder Pos where
  le_refl p := by rw [le_def]; omega
  le_trans p q r hpq hqr := by rw [le_def] at *; omega
  lt_iff_le_not_ge p q := by rw [lt_def, le_def, le_def]; omega
  le_antisymm p q hpq hqp := by
    rw [le_def] at hpq hqp
    exact Pos.ext (by omega) (by omega)
  le_total p q := by rw [le_def, le_def]; omega
  toDecidableLE := inferInstance

theorem line_le_line {p q : Pos} (h : p ≤ q) : p.line ≤ q.line := by
  rw [le_def] at h
  omega

theorem clamp_mono {a b : Int} (h : a ≤ b) : clamp a ≤ clamp b := by
  unfold clamp
  omega

theorem clamp_of_lt {a : Nat} (h : 1 ≤ a) (h' : a ≤ maxCoordinate) : clamp a = a := by
  unfold clamp
  omega

@[simp]
theorem line_right (p : Pos) (n : Nat) : (p.right n).line = p.line := rfl

@[simp]
theorem col_right (p : Pos) (n : Nat) : (p.right n).col = p.col + n := rfl

@[simp]
theorem right_zero (p : Pos) : p.right 0 = p := rfl

theorem right_right (p : Pos) (m n : Nat) : (p.right m).right n = p.right (m + n) := by
  ext
  · rfl
  · simp [Nat.add_assoc]

theorem le_right (p : Pos) (n : Nat) : p ≤ p.right n := by
  rw [le_def]
  simp

theorem lt_right (p : Pos) {n : Nat} (h : 0 < n) : p < p.right n := by
  rw [lt_def]
  simp [h]

/-- The position `n` columns to the left. -/
def left (p : Pos) (n : Nat) : Pos := { p with col := p.col - n }

@[simp]
theorem line_left (p : Pos) (n : Nat) : (p.left n).line = p.line := rfl

@[simp]
theorem col_left (p : Pos) (n : Nat) : (p.left n).col = p.col - n := rfl

theorem left_right (p : Pos) (n : Nat) : (p.right n).left n = p := by
  ext
  · rfl
  · simp

end Pos

/-! ## Room -/

/-- After which positions room was made, and how many lines each time. -/
abbrev Room := List (Pos × Nat)

namespace Room

variable {r : Room} {p q : Pos}

/-- How many lines of room were made at or before a position. -/
def before (r : Room) (q : Pos) : Nat := ((r.filter (·.1 ≤ q)).map (·.2)).sum

/-- **Where a position is once the room is made.** -/
def move (r : Room) (q : Pos) : Pos := ⟨q.line + r.before q, q.col⟩

@[simp]
theorem line_move (r : Room) (q : Pos) : (r.move q).line = q.line + r.before q := rfl

@[simp]
theorem col_move (r : Room) (q : Pos) : (r.move q).col = q.col := rfl

@[simp]
theorem before_nil (q : Pos) : before [] q = 0 := rfl

theorem before_cons (m : Pos × Nat) (r : Room) (q : Pos) :
    before (m :: r) q = (if m.1 ≤ q then m.2 else 0) + before r q := by
  unfold before
  by_cases h : m.1 ≤ q <;> simp [h]

theorem before_append (r r' : Room) (q : Pos) : before (r ++ r') q = before r q + before r' q := by
  unfold before
  rw [List.filter_append, List.map_append, List.sum_append]

theorem before_mono (r : Room) (h : p ≤ q) : r.before p ≤ r.before q := by
  induction r with
  | nil => exact Nat.le_refl 0
  | cons m r ih =>
    rw [before_cons, before_cons]
    by_cases hm : m.1 ≤ p
    · rw [if_pos hm, if_pos (hm.trans h)]
      omega
    · rw [if_neg hm]
      omega

/-- Between two positions no room was made. -/
theorem before_congr (h : ∀ m ∈ r, m.1 ≤ p ↔ m.1 ≤ q) : r.before p = r.before q := by
  unfold before
  rw [List.filter_congr fun m hm => decide_eq_decide.2 (h m hm)]

theorem before_eq_zero (h : ∀ m ∈ r, q < m.1) : r.before q = 0 := by
  unfold before
  rw [List.filter_eq_nil_iff.2 fun m hm => by simpa using h m hm]
  rfl

theorem move_lt_move (r : Room) (h : p < q) : r.move p < r.move q := by
  have hb := r.before_mono h.le
  rw [Pos.lt_def] at h ⊢
  simp
  omega

@[simp]
theorem move_lt_move_iff : r.move p < r.move q ↔ p < q := by
  refine ⟨fun h => ?_, r.move_lt_move⟩
  by_contra hn
  rcases (not_lt.1 hn).eq_or_lt with rfl | hqp
  · exact lt_irrefl _ h
  · exact lt_asymm h (r.move_lt_move hqp)

@[simp]
theorem move_le_move_iff : r.move p ≤ r.move q ↔ p ≤ q := by
  rw [← not_lt, move_lt_move_iff, not_lt]

/-- What is on one line once the room is made was on one line before. -/
theorem line_eq_of_move (h : (r.move p).line = (r.move q).line) : p.line = q.line := by
  rw [line_move, line_move] at h
  rcases le_total p q with hle | hle
  · have := r.before_mono hle
    have := Pos.line_le_line hle
    omega
  · have := r.before_mono hle
    have := Pos.line_le_line hle
    omega

theorem move_eq_self (h : ∀ m ∈ r, q < m.1) : r.move q = q := by
  unfold move
  rw [before_eq_zero h, Nat.add_zero]

/-- Where no room is made within a stretch of columns, it moves as a whole. -/
theorem move_right {n : Nat} (h : r.before (p.right n) = r.before p) : r.move (p.right n) = (r.move p).right n := by
  unfold move Pos.right
  rw [← h]
  rfl

theorem move_left {n : Nat} (h : r.before (p.left n) = r.before p) : r.move (p.left n) = (r.move p).left n := by
  unfold move Pos.left
  rw [← h]
  rfl

/-- If as much room is made before the end of a stretch as before its beginning, none is made in it. -/
theorem before_eq_of_le {s : Pos} (hp : p ≤ q) (hq : q ≤ s) (h : r.before s = r.before p) : r.before q = r.before p :=
  Nat.le_antisymm (h ▸ r.before_mono hq) (r.before_mono hp)

/-! ## Locations in room -/

/-- Where a span is once the room is made. -/
def span (r : Room) (s : Span) : Span := ⟨r.move s.start, r.move s.stop⟩

/-- Where a location is once the room is made. -/
def loc (r : Room) : Loc → Loc
  | .synthetic => .synthetic
  | .span s => .span (r.span s)

@[simp]
theorem start?_loc (r : Room) (l : Loc) : (r.loc l).start? = l.start?.map r.move := by cases l <;> rfl

@[simp]
theorem stop?_loc (r : Room) (l : Loc) : (r.loc l).stop? = l.stop?.map r.move := by cases l <;> rfl

end Room

end UniformAccess
