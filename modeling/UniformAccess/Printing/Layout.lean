import UniformAccess.Node.Kind
/-!
# Tables over nodes

What is known of some nodes of a tree, by their numbers. The last entry made for a node counts.
-/
namespace UniformAccess

structure NodeMap (α : Type) where
  entries : List (NodeId × α) := []

namespace NodeMap

variable {α : Type}

def get? (m : NodeMap α) (id : NodeId) : Option α := m.entries.lookup id

def insert (m : NodeMap α) (id : NodeId) (value : α) : NodeMap α := ⟨(id, value) :: m.entries⟩

/-- The table with one value entered for several nodes. -/
def insertAll (m : NodeMap α) (ids : List NodeId) (value : α) : NodeMap α := ids.foldl (·.insert · value) m

theorem get?_insert (m : NodeMap α) (id other : NodeId) (value : α) :
    (m.insert id value).get? other = if other = id then some value else m.get? other := by
  by_cases h : other = id
  · simp [get?, insert, h]
  · have hne : (other == id) = false := by simp [h]
    rw [if_neg h]
    show (match other == id with | true => some value | false => m.entries.lookup other) = _
    rw [hne]
    rfl

theorem get?_insertAll (m : NodeMap α) (ids : List NodeId) (other : NodeId) (value : α) :
    (m.insertAll ids value).get? other = if other ∈ ids then some value else m.get? other := by
  induction ids generalizing m with
  | nil => simp [insertAll]
  | cons id rest ih =>
    have step : m.insertAll (id :: rest) value = (m.insert id value).insertAll rest value := rfl
    rw [step, ih, get?_insert]
    by_cases hrest : other ∈ rest <;> by_cases hid : other = id <;> simp [hrest, hid]

end NodeMap

/-- Where the text of each node was written. -/
abbrev Layout := NodeMap Span

end UniformAccess
