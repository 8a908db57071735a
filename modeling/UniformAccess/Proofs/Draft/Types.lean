import UniformAccess.Draft.Header
import UniformAccess.Proofs.Position
import UniformAccess.Proofs.Printing.Spelling
import UniformAccess.Proofs.Tree.Ends
/-!
# Types as an author drafts them

An author drafts a type from its parts, each where it stands in the source: the first argument directly after the `<`,
and each further one after a comma and a space. The type spans as many columns as its text has characters, but for the
generic types in it without arguments. For these two columns are set aside, though no brackets are written
(`draft_columns`).
-/
namespace UniformAccess

/-- **A type, as an author thinks of it.** -/
inductive TypeExpr where
  | primitive (p : Primitive)
  | named (name : String)
  | generic (name : String) (args : List TypeExpr)
  | array (elem : TypeExpr) (dims : Nat)

namespace TypeExpr

/-! ## Drafting -/

mutual

/-- Drafts a type at `p`. -/
def draft {ε : Type} : TypeExpr → Pos → EStateM ε Tree NodeId
  | primitive kind, p => (Draft.primitiveType p kind).place
  | named name, p => (Draft.classType p name).place
  | generic name args, p => do
    let ids ← draftArgs args (p.right (name.length + 1))
    (Draft.genericType p name ids (← get)).place
  | array elem dims, p => do
    let id ← elem.draft p
    (Draft.arrayType id dims (← get)).place

/-- Drafts arguments from `p` on, with room for a comma and a space between them. -/
def draftArgs {ε : Type} : List TypeExpr → Pos → EStateM ε Tree (List NodeId)
  | [], _ => pure []
  | e :: es, p => do
    let id ← e.draft p
    let stop := ((← get).stop? id).getD p
    let ids ← draftArgs es (stop.right 2)
    return id :: ids

end

/-! ## Text -/

mutual

/-- How a type is written. A list without arguments is not written at all. -/
def text : TypeExpr → String
  | primitive kind => kind.text
  | named name => name
  | generic name [] => name
  | generic name (e :: es) => name ++ "<" ++ (e.text ++ textAfter es) ++ ">"
  | array elem dims => elem.text ++ String.join (List.replicate dims "[]")

/-- Arguments after the first. -/
def textAfter : List TypeExpr → String
  | [] => ""
  | e :: es => ", " ++ e.text ++ textAfter es

end

mutual

/-- The number of generic types in a type that have no arguments. -/
def hollow : TypeExpr → Nat
  | primitive _ => 0
  | named _ => 0
  | generic _ [] => 1
  | generic _ (e :: es) => e.hollow + hollowAll es
  | array elem _ => elem.hollow

def hollowAll : List TypeExpr → Nat
  | [] => 0
  | e :: es => e.hollow + hollowAll es

end

/-- A list of arguments. -/
def listText : List TypeExpr → String
  | [] => ""
  | e :: es => e.text ++ textAfter es

/-- The number of columns that are set aside for a type. -/
def width (e : TypeExpr) : Nat := e.text.length + 2 * e.hollow

end TypeExpr

namespace Tree

variable {t t' t'' : Tree} {x id : NodeId} {loc : Loc} {k : Kind}

/-! ## Trees that only grow -/

/-- **The nodes of `t` are what and where they were.** -/
def GrowsTo (t t' : Tree) : Prop := ∀ x, t.contains x = true → t'.bare? x = t.bare? x ∧ t'.loc? x = t.loc? x

theorem GrowsTo.refl (t : Tree) : GrowsTo t t := fun _ _ => ⟨rfl, rfl⟩

theorem GrowsTo.trans (h : GrowsTo t t') (h' : GrowsTo t' t'') : GrowsTo t t'' := fun x hx => by
  obtain ⟨hbare, hloc⟩ := h x hx
  obtain ⟨hbare', hloc'⟩ := h' x (by rwa [contains_congr hbare])
  exact ⟨hbare'.trans hbare, hloc'.trans hloc⟩

theorem growsTo_add (t : Tree) (loc : Loc) (k : Kind) : GrowsTo t (t.add loc k) := fun x hx => by
  have hne := ne_fresh_of_contains hx
  rw [bare?_add, loc?_add, if_neg hne, if_neg hne]
  exact ⟨rfl, rfl⟩

/-! ## What is written of a node -/

/-- **Some items are spelled as a text** after anything that does not join with it. -/
def SpellsOut (t : Tree) (items : List Item) (text : String) : Prop :=
  ∃ ss, Spells 0 t items ss ∧ (∀ next, .sep next ∉ ss) ∧ spell none ss = text

theorem SpellsOut.grow {items : List Item} {text : String} (h : t.SpellsOut items text) (hg : GrowsTo t t') :
    t'.SpellsOut items text := by
  obtain ⟨ss, hss, hsep, htext⟩ := h
  exact ⟨ss, hss.keep (fun x _ hx => (hg x hx).1) (Nat.le_refl 0), hsep, htext⟩

theorem SpellsOut.render_eq {text : String} (h : t.SpellsOut [.child x] text) : t.render x = text := by
  obtain ⟨ss, hss, -, htext⟩ := h
  rw [hss.render_eq_of_acyclicBelow (hss.acyclicBelow List.mem_cons_self), htext]

theorem spellsOut_write (t : Tree) (text : String) : t.SpellsOut (Script.write text) text := by
  refine ⟨_, .stroke _ .nil, fun next h => ?_, ?_⟩
  · cases List.mem_singleton.1 h
  · rw [Stroke.unplaced, spell_write rfl, spell_nil, String.append_empty]

/-- **A new node is written as its items are.** -/
theorem SpellsOut.add {text : String} (h : t.SpellsOut k.items text) (hbare : k.bare = k) (loc : Loc) :
    (t.add loc k).SpellsOut [.child t.fresh] text := by
  obtain ⟨ss, hss, hsep, htext⟩ := h.grow (growsTo_add t loc k)
  have hkind : (t.add loc k).bare? t.fresh = some k := by rw [bare?_add, if_pos rfl, hbare]
  refine ⟨_, .child (Nat.zero_le _) hkind hss .nil, fun next hnext => ?_, ?_⟩
  · rw [List.append_nil] at hnext
    exact hsep next (List.mem_of_ne_of_mem (by simp) hnext)
  · rw [List.append_nil, spell_goto, htext]

/-- A mark after some items. -/
theorem SpellsOut.mark {items : List Item} {text mark : String} (h : t.SpellsOut items text)
    (hmark : mark.toList.head?.any isIdentChar = false) : t.SpellsOut (items ++ Script.write mark) (text ++ mark) := by
  obtain ⟨ss, hss, hsep, htext⟩ := h
  refine ⟨_, hss.append (.stroke _ .nil), fun next hnext => ?_, ?_⟩
  · rcases List.mem_append.1 hnext with hnext | hnext
    · exact hsep next hnext
    · cases List.mem_singleton.1 hnext
  · rw [spell_append, htext, Stroke.unplaced, spell_cons, spell_nil, String.append_empty]
    exact congrArg _ (joined_of_head hmark _)

/-- Items after a text that ends in a mark. -/
theorem SpellsOut.after {items : List Item} {text : String} (h : t.SpellsOut items text) (front mark : String)
    (hhead : mark.toList.head?.any isIdentChar = false) (hne : mark ≠ "")
    (hlast : mark.toList.getLast?.any isIdentChar = false) :
    t.SpellsOut (Script.write front ++ Script.write mark ++ items) (front ++ mark ++ text) := by
  obtain ⟨ss, hss, hsep, htext⟩ := h
  refine ⟨_, .stroke _ (.stroke _ hss), fun next hnext => ?_, ?_⟩
  · exact hsep next (List.mem_of_ne_of_mem (by simp [Stroke.unplaced])
      (List.mem_of_ne_of_mem (by simp [Stroke.unplaced]) hnext))
  · rw [Stroke.unplaced, Stroke.unplaced, spell_write rfl, spell_mark hhead hne, spell_of_not_ident hlast hsep, htext,
      String.append_assoc]

/-- **Nodes after the first one of a list**, each of them after a comma. -/
theorem spellsOut_listAfter : ∀ {xs : List NodeId} {es : List TypeExpr} (prev : NodeId),
    List.Forall₂ (fun x e => t.SpellsOut [.child x] e.text) xs es →
    ∃ ss, Spells 0 t (Script.listAfter .empty prev xs) ss ∧ (∀ next, .sep next ∉ ss) ∧
      ∀ c, spell c ss = TypeExpr.textAfter es
  | [], _, _, .nil => ⟨[], .nil, fun _ => List.not_mem_nil, fun _ => rfl⟩
  | x :: xs, e :: es, prev, .cons ⟨ss, hss, hsep, htext⟩ h => by
    obtain ⟨ss', hss', hsep', htext'⟩ := spellsOut_listAfter x h
    refine ⟨_, .stroke _ (hss.cons_child hss'), fun next hnext => ?_, fun c => ?_⟩
    · rcases List.mem_append.1 (List.mem_of_ne_of_mem (by simp [Stroke.unplaced]) hnext) with hnext | hnext
      · exact hsep next hnext
      · exact hsep' next hnext
    · have hpadded : (Glue.mk false "," true).padded = ", " := by decide
      rw [Stroke.unplaced, spell_glue (by decide) (by decide), hpadded, spell_append,
        spell_of_not_ident (by decide) hsep, htext, htext', TypeExpr.textAfter, String.append_assoc]

theorem spellsOut_list {xs : List NodeId} {es : List TypeExpr}
    (h : List.Forall₂ (fun x e => t.SpellsOut [.child x] e.text) xs es) :
    t.SpellsOut (Script.list .empty xs) (TypeExpr.listText es) := by
  cases h with
  | nil => exact ⟨[], .nil, fun _ => List.not_mem_nil, rfl⟩
  | @cons x e xs es hx h =>
    obtain ⟨ss, hss, hsep, htext⟩ := hx
    obtain ⟨ss', hss', hsep', htext'⟩ := spellsOut_listAfter x h
    refine ⟨_, hss.cons_child hss', fun next hnext => ?_, ?_⟩
    · exact (List.mem_append.1 hnext).elim (hsep next) (hsep' next)
    · rw [spell_append, htext, htext']
      rfl

end Tree

namespace TypeExpr

open UniformAccess.Tree

variable {ε : Type} {t : Tree}

/-! ## Drafting a type -/

/-- **A type was drafted at `p`**: the tree has grown, and the node is written as the type is and has the columns set
aside for it. -/
structure Drafts (e : TypeExpr) (p : Pos) (t : Tree) (x : NodeId) (t' : Tree) : Prop where
  grows : GrowsTo t t'
  loc : t'.loc? x = some (.span ⟨p, p.right e.width⟩)
  spelled : t'.SpellsOut [.child x] e.text

theorem ends_place {e : TypeExpr} {p : Pos} {t t₀ : Tree} {d : Draft} (hg : GrowsTo t t₀)
    (hloc : d.loc = .span ⟨p, p.right e.width⟩) (hbare : d.kind.bare = d.kind) (h : t₀.SpellsOut d.kind.items e.text) :
    Ends (d.place : EStateM ε Tree NodeId) t₀ (e.Drafts p t) :=
  Tree.ends_alloc ⟨hg.trans (growsTo_add t₀ d.loc d.kind), by rw [loc?_add, if_pos rfl, hloc], h.add hbare _⟩

theorem length_brackets (dims : Nat) : (String.join (List.replicate dims "[]")).length = 2 * dims := by
  induction dims with
  | zero => rfl
  | succ dims ih =>
    rw [List.replicate_succ, String.join_cons, String.length_append, ih, Nat.mul_succ, Nat.add_comm]
    rfl

theorem head_brackets (dims : Nat) : (String.join (List.replicate dims "[]")).toList.head?.any isIdentChar = false := by
  cases dims with
  | zero => rfl
  | succ dims =>
    rw [List.replicate_succ, String.join_cons, String.toList_append]
    rfl

/-- The columns of the arguments and of the name and the brackets around them. -/
theorem width_generic (name : String) (e : TypeExpr) (es : List TypeExpr) :
    (generic name (e :: es)).width = name.length + 1 + ((listText (e :: es)).length + 2 * hollowAll (e :: es)) + 1 := by
  simp only [width, text, hollow, listText, hollowAll, String.length_append]
  have hopen : "<".length = 1 := rfl
  have hclose : ">".length = 1 := rfl
  omega

/-- The columns of a list of two arguments or more. -/
theorem length_listText_cons (e e' : TypeExpr) (es : List TypeExpr) : (listText (e :: e' :: es)).length +
    2 * hollowAll (e :: e' :: es) = e.width + 2 + ((listText (e' :: es)).length + 2 * hollowAll (e' :: es)) := by
  simp only [width, listText, textAfter, hollowAll, String.length_append]
  have hcomma : ", ".length = 2 := rfl
  omega

mutual

/-- **Drafting a type ends**, and it leaves what it should. -/
theorem ends_draft : ∀ (e : TypeExpr) (p : Pos) (t : Tree), Ends (e.draft p : EStateM ε Tree NodeId) t (e.Drafts p t)
  | primitive kind, p, t => ends_place (.refl t) rfl rfl (spellsOut_write t kind.text)
  | named name, p, t => ends_place (.refl t) rfl rfl (spellsOut_write t name)
  | generic name [], p, t => ends_place (.refl t) rfl rfl (spellsOut_write t name)
  | generic name (e :: es), p, t => by
    unfold draft
    refine .bind (ends_draftArgs (e :: es) _ t) fun xs t₁ ⟨hg, hargs, hstop⟩ => .bind_get (ends_place hg ?_ rfl ?_)
    · rw [Draft.genericType, stopOfBracketed, hstop (List.cons_ne_nil e es), width_generic]
      simp only [Option.map_some, Loc.between, Pos.right_right]
    -- the brackets are written because there are arguments between them
    · obtain ⟨x, xs, rfl⟩ : ∃ x xs', xs = x :: xs' := by
        cases hargs
        exact ⟨_, _, rfl⟩
      exact ((spellsOut_list hargs).after name "<" (by decide) (by decide) (by decide)).mark (by decide)
  | array elem dims, p, t => by
    unfold draft
    refine .bind (ends_draft elem p t) fun x t₁ h => .bind_get (ends_place h.grows ?_ rfl ?_)
    · rw [Draft.arrayType, start?_of_loc? h.loc, stop?_of_loc? h.loc]
      simp only [Loc.start?_span, Loc.stop?_span, Option.map_some, Loc.between, Pos.right_right, width, text, hollow,
        String.length_append, length_brackets]
      rw [Nat.add_right_comm]
    · exact h.spelled.mark (head_brackets dims)

/-- Arguments end where the last of them does. -/
theorem ends_draftArgs : ∀ (es : List TypeExpr) (p : Pos) (t : Tree), Ends (draftArgs es p : EStateM ε Tree _) t
    (fun xs t' => GrowsTo t t' ∧ List.Forall₂ (fun x e => t'.SpellsOut [.child x] e.text) xs es ∧
      (es ≠ [] → ∀ otherwise, t'.stopOfLast xs otherwise = some (p.right ((listText es).length + 2 * hollowAll es))))
  | [], p, t => .pure ⟨.refl t, .nil, fun h => absurd rfl h⟩
  | e :: es, p, t => by
    unfold draftArgs
    refine .bind (ends_draft e p t) fun x t₁ h => .bind_get ?_
    rw [stop?_of_loc? h.loc]
    refine .bind (ends_draftArgs es _ t₁) fun xs t₂ ⟨hg, hargs, hstop⟩ =>
      .pure ⟨h.grows.trans hg, .cons (h.spelled.grow hg) hargs, fun _ otherwise => ?_⟩
    cases hargs with
    | nil =>
      -- the last argument is still where it was drafted
      have hloc := (hg x (contains_of_loc? h.loc)).2.trans h.loc
      show t₂.stop? x = _
      rw [stop?_of_loc? hloc]
      simp [listText, textAfter, hollowAll, width]
    | @cons x' e' xs es _ _ =>
      have hlast : t₂.stopOfLast (x :: x' :: xs) otherwise = t₂.stopOfLast (x' :: xs) otherwise := by
        rw [stopOfLast, stopOfLast, List.getLast?_cons_cons]
      rw [hlast, hstop (List.cons_ne_nil e' es), length_listText_cons]
      simp only [Loc.stop?_span, Option.getD_some, Pos.right_right]

end

/-! ## Columns -/

/-- The number of columns of a span on one line. -/
def columns (s : Span) : Nat := s.stop.col - s.start.col

/-- **A type spans its text, and two columns more for each generic type in it without arguments.** Whatever the type,
wherever it begins and whatever is in the tree already, it can be drafted, and it ends on the line it begins on. So it
spans as many columns as its text has characters exactly if every generic type in it has arguments. -/
theorem draft_columns (e : TypeExpr) (p : Pos) (t : Tree) :
    ∃ x t' s, (e.draft p : EStateM ε Tree NodeId) t = .ok x t' ∧ t'.loc? x = some (.span s) ∧ t'.render x = e.text ∧
      s.start = p ∧ s.stop.line = p.line ∧ columns s = (t'.render x).length + 2 * e.hollow ∧
      (columns s = (t'.render x).length ↔ e.hollow = 0) := by
  obtain ⟨x, t', hdraft, h⟩ : Ends (e.draft p : EStateM ε Tree NodeId) t (e.Drafts p t) := ends_draft e p t
  have hrender := h.spelled.render_eq
  have hcolumns : columns ⟨p, p.right e.width⟩ = e.text.length + 2 * e.hollow := Nat.add_sub_cancel_left ..
  refine ⟨x, t', ⟨p, p.right e.width⟩, hdraft, h.loc, hrender, rfl, rfl, ?_, ?_⟩
  · rw [hrender, hcolumns]
  · rw [hrender, hcolumns]
    omega

/-- **A generic type without arguments spans more than its text.** -/
theorem columns_ne_of_hollow :
    ∃ x t' s, ((generic "Foo" []).draft ⟨1, 1⟩ : EStateM Unit Tree NodeId) .empty = .ok x t' ∧
    t'.loc? x = some (.span s) ∧ columns s = 5 ∧ t'.render x = "Foo" ∧ columns s ≠ (t'.render x).length := by
  refine ⟨⟨1⟩, _, ⟨⟨1, 1⟩, ⟨1, 6⟩⟩, rfl, ?_, rfl, ?_, ?_⟩
  all_goals decide +kernel

end TypeExpr

end UniformAccess
