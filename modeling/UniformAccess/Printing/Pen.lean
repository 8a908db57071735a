import UniformAccess.Name
import UniformAccess.Printing.Layout
/-!
# The pen

The pen writes text forward and never goes back. It is sent to positions: if one lies ahead, newlines and spaces lead up
to it, and if one lies behind, the pen writes where it is. Two words never run together, because the pen puts a space
between two identifier characters that come from different strokes.

While it writes, the pen keeps for each node the position where its text begins and, once the node is left, where it
ends. A node begins with the first text written in it; the blanks before that do not count.
-/
namespace UniformAccess

/-! ## Strokes -/

/-- A token between two nodes, with the spaces that are usual around it. -/
structure Glue where
  before : Bool
  token : String
  after : Bool
deriving DecidableEq, Repr

namespace Glue

/-- A token with a space on both sides. -/
def spaced (token : String) : Glue := ⟨true, token, true⟩

/-- The token and the usual space before it. -/
def leading (g : Glue) : String := if g.before then " " ++ g.token else g.token

def padded (g : Glue) : String := if g.after then g.leading ++ " " else g.leading

end Glue

/-- What the pen can be told to do. -/
inductive Stroke where
  /-- Move ahead to a position. -/
  | goto (target : Option Pos)
  | write (text : String)
  /-- Leave a space, unless what follows is to be written at a position ahead. -/
  | sep (next : Option Pos)
  /-- Write a token between a node that stops at `prev` and one that starts at `next`. -/
  | glue (glue : Glue) (prev next : Option Pos)
deriving DecidableEq, Repr

/-- The stroke with the positions left out. -/
def Stroke.unplaced : Stroke → Stroke
  | goto _ => goto none
  | write text => write text
  | sep _ => sep none
  | glue g _ _ => glue g none none

/-- What happens while a tree is written: strokes, and the nodes that are entered and left. -/
inductive Event where
  | stroke (s : Stroke)
  | enter (id : NodeId)
  | leave (id : NodeId)
deriving DecidableEq, Repr

def Event.unplaced : Event → Event
  | stroke s => stroke s.unplaced
  | enter id => enter id
  | leave id => leave id

/-! ## The pen -/

structure Pen where
  out : String := ""
  /-- Where the next character goes. -/
  pos : Pos := ⟨1, 1⟩
  /-- The last character written. -/
  last : Option Char := none
  /-- The nodes that are entered and have not written anything yet. -/
  pending : List NodeId := []
  /-- Where the text of each node begins. -/
  starts : NodeMap Pos := {}
  layout : Layout := {}

namespace Pen

def space (p : Pen) : Pen := { p with out := p.out ++ " ", pos := p.pos.right 1, last := some ' ' }

def spaces (p : Pen) : Nat → Pen
  | 0 => p
  | n + 1 => p.space.spaces n

def newline (p : Pen) : Pen := { p with out := p.out ++ "\n", pos := ⟨p.pos.line + 1, 1⟩, last := some '\n' }

def newlines (p : Pen) : Nat → Pen
  | 0 => p
  | n + 1 => p.newline.newlines n

/-- Moves ahead to a position; stays if it lies behind. -/
def goto (p : Pen) (target : Pos) : Pen :=
  let p := p.newlines (target.line - p.pos.line)
  if target.line = p.pos.line then p.spaces (target.col - p.pos.col) else p

/-- Writes a text, after a space if the text would run together with the last word. -/
def write (p : Pen) (text : String) : Pen :=
  match text.toList with
  | [] => p
  | first :: _ =>
    let p := if p.last.any isIdentChar && isIdentChar first then p.space else p
    { p with
      out := p.out ++ text, pos := p.pos.right text.length, last := text.toList.getLast?,
      pending := [], starts := p.starts.insertAll p.pending p.pos }

def sep (p : Pen) (next : Option Pos) : Pen :=
  if p.last = none ∨ p.last = some ' ' ∨ p.last = some '\n' then p
  else if next.any (p.pos ≤ ·) then p
  else p.space

/-- Writes a token between two nodes. If both are on one line with room for the token, the columns between them are
filled exactly: one space goes before the token, unless only the space after it is usual, and the others after it. If
the second node is on a later line, the token gets no space after it. Otherwise the usual spaces are written. Without
the first node the pen's own position counts. -/
def glue (p : Pen) (g : Glue) (prev next : Option Pos) : Pen :=
  let prev := prev.getD p.pos
  match next with
  | none => p.write g.padded
  | some next =>
    if next.line = prev.line ∧ prev.col + g.token.length ≤ next.col then
      let gap := next.col - prev.col - g.token.length
      if 0 < gap ∧ (g.before || !g.after) then (p.space.write g.token).spaces (gap - 1)
      else (p.write g.token).spaces gap
    else if prev.line < next.line ∧ p.pos < next then p.write g.leading
    else p.write g.padded

/-- Enters a node. -/
def enter (p : Pen) (id : NodeId) : Pen := { p with pending := id :: p.pending }

/-- Leaves a node: if it wrote something, its text ends here. -/
def leave (p : Pen) (id : NodeId) : Pen :=
  { p with
    pending := p.pending.filter (· ≠ id)
    layout :=
      match p.starts.get? id with
      | some start => p.layout.insert id ⟨start, p.pos⟩
      | none => p.layout }

def stroke (p : Pen) : Stroke → Pen
  | .goto none => p
  | .goto (some target) => p.goto target
  | .write text => p.write text
  | .sep next => p.sep next
  | .glue g prev next => p.glue g prev next

def step (p : Pen) : Event → Pen
  | .stroke s => p.stroke s
  | .enter id => p.enter id
  | .leave id => p.leave id

def run (p : Pen) (events : List Event) : Pen := events.foldl step p

end Pen

end UniformAccess
