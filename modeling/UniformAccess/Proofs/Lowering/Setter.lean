import UniformAccess.Proofs.Lowering.Member
/-!
# The code of a default setter

A default setter is made of new nodes alone. `IsDefaultSetter` says what they are, from the method down to the names in
its body, and it stays true when other nodes change. A property that gives no body to its setter gets such a setter
(`ends_addSetter_default`).
-/
namespace UniformAccess.Lowering

open UniformAccess.Tree

variable {o : LoweringOptions} {d : PropertyDecl} {t t' : Tree} {n n' : Nat} {x : NodeId} {k : Kind}
  {backing observer value : String}

/-! ## What it is made of -/

/-- A node of a kind that was not among the first `n` nodes. -/
def IsNew (n : Nat) (t : Tree) (x : NodeId) (k : Kind) : Prop := n ≤ x.index ∧ t.bare? x = some k

/-- **The statement `if (observer != null) observer.changed(backing, value);`.** -/
def Notifies (backing observer value : String) (n : Nat) (t : Tree) (x : NodeId) : Prop :=
  ∃ left right cond receiver old new call notification,
    IsNew n t left (.nameExpr observer) ∧ IsNew n t right (.literal .null) ∧ IsNew n t cond (.binary left .ne right) ∧
    IsNew n t receiver (.nameExpr observer) ∧ IsNew n t old (.nameExpr backing) ∧ IsNew n t new (.nameExpr value) ∧
    IsNew n t call (.call (some receiver) (.synthetic "changed") [old, new]) ∧
    IsNew n t notification (.exprStmt call) ∧ IsNew n t x (.ifStmt cond notification none)

/-- **The statement `backing = value;`.** -/
def Stores (backing value : String) (n : Nat) (t : Tree) (x : NodeId) : Prop :=
  ∃ target source assign, IsNew n t target (.nameExpr backing) ∧ IsNew n t source (.nameExpr value) ∧
    IsNew n t assign (.assign target .plain source) ∧ IsNew n t x (.exprStmt assign)

def IsSetterBody (backing observer value : String) (n : Nat) (t : Tree) (x : NodeId) : Prop :=
  ∃ notify store, Notifies backing observer value n t notify ∧ Stores backing value n t store ∧
    IsNew n t x (.block [notify, store])

/-- **The default setter of a property**, with a single parameter. -/
def IsDefaultSetter (o : LoweringOptions) (d : PropertyDecl) (n : Nat) (t : Tree) (x : NodeId) : Prop :=
  ∃ decl param pdecl body,
    IsSetterBody (o.backingName d.name.name) (o.observerFieldName d.name.name) o.paramName n t body ∧
    IsNew n t param (.param pdecl) ∧ pdecl.name.name = o.paramName ∧ IsNew n t x (.method decl) ∧
    decl.params = [param] ∧ decl.body = some body

section

variable (hkeep : ∀ x, n ≤ x.index → t.contains x = true → t'.bare? x = t.bare? x)
include hkeep

theorem IsNew.keep (h : IsNew n t x k) (hn : n' ≤ n) : IsNew n' t' x k :=
  ⟨Nat.le_trans hn h.1, by rw [hkeep x h.1 (contains_of_bare? h.2), h.2]⟩

theorem Notifies.keep (h : Notifies backing observer value n t x) (hn : n' ≤ n) :
    Notifies backing observer value n' t' x := by
  obtain ⟨left, right, cond, receiver, old, new, call, notification, h₁, h₂, h₃, h₄, h₅, h₆, h₇, h₈, h₉⟩ := h
  exact ⟨left, right, cond, receiver, old, new, call, notification, h₁.keep hkeep hn, h₂.keep hkeep hn,
    h₃.keep hkeep hn, h₄.keep hkeep hn, h₅.keep hkeep hn, h₆.keep hkeep hn, h₇.keep hkeep hn, h₈.keep hkeep hn,
    h₉.keep hkeep hn⟩

theorem Stores.keep (h : Stores backing value n t x) (hn : n' ≤ n) : Stores backing value n' t' x := by
  obtain ⟨target, source, assign, h₁, h₂, h₃, h₄⟩ := h
  exact ⟨target, source, assign, h₁.keep hkeep hn, h₂.keep hkeep hn, h₃.keep hkeep hn, h₄.keep hkeep hn⟩

theorem IsSetterBody.keep (h : IsSetterBody backing observer value n t x) (hn : n' ≤ n) :
    IsSetterBody backing observer value n' t' x := by
  obtain ⟨notify, store, hnotify, hstore, hx⟩ := h
  exact ⟨notify, store, hnotify.keep hkeep hn, hstore.keep hkeep hn, hx.keep hkeep hn⟩

theorem IsDefaultSetter.keep (h : IsDefaultSetter o d n t x) (hn : n' ≤ n) : IsDefaultSetter o d n' t' x := by
  obtain ⟨decl, param, pdecl, body, hbody, hparam, hname, hx, hparams, hdecl⟩ := h
  exact ⟨decl, param, pdecl, body, hbody.keep hkeep hn, hparam.keep hkeep hn, hname, hx.keep hkeep hn, hparams, hdecl⟩

end

theorem IsSetterBody.contains (h : IsSetterBody backing observer value n t x) : t.contains x = true := by
  obtain ⟨_, _, _, _, hx⟩ := h
  exact contains_of_bare? hx.2

/-! ## How it is made -/

/-- **A node was added**, and the others are what they were. -/
structure Added (n : Nat) (t : Tree) (a : NodeId) (k : Kind) (t' : Tree) : Prop where
  new : IsNew n t' a k
  size_le : n ≤ t'.cells.size
  bare_eq : ∀ x, n ≤ x.index → t.contains x = true → t'.bare? x = t.bare? x

theorem Added.keep {a : NodeId} {k' : Kind} (h : Added n t a k t') (hx : IsNew n t x k') : IsNew n t' x k' :=
  hx.keep h.bare_eq (Nat.le_refl n)

theorem ends_alloc_added {loc : Loc} (hn : n ≤ t.cells.size) (hbare : k.bare = k) :
    Ends (alloc loc k : Edit LowerError NodeId) t (fun a t' => Added n t a k t') := by
  refine Tree.ends_alloc ⟨⟨hn, ?_⟩, ?_, fun x _ hx => ?_⟩
  · rw [bare?_add, if_pos rfl, hbare]
  · rw [size_add]
    exact Nat.le_succ_of_le hn
  · rw [bare?_add, if_neg (ne_fresh_of_contains hx)]

theorem ends_defaultSetterBody_code (p : Pos) (backing observer : String) :
    Ends (defaultSetterBody o p backing observer) t (fun a t' => t.cells.size ≤ t'.cells.size ∧
      IsSetterBody backing observer o.paramName t.cells.size t' a) := by
  unfold defaultSetterBody
  refine .bind (ends_alloc_added (Nat.le_refl _) rfl) fun left t₁ h₁ => ?_
  refine .bind (ends_alloc_added h₁.size_le rfl) fun right t₂ h₂ => ?_
  refine .bind (ends_alloc_added h₂.size_le rfl) fun cond t₃ h₃ => ?_
  refine .bind (ends_alloc_added h₃.size_le rfl) fun receiver t₄ h₄ => ?_
  refine .bind (ends_alloc_added h₄.size_le rfl) fun old t₅ h₅ => ?_
  refine .bind (ends_alloc_added h₅.size_le rfl) fun new t₆ h₆ => ?_
  refine .bind (ends_alloc_added h₆.size_le rfl) fun call t₇ h₇ => ?_
  refine .bind (ends_alloc_added h₇.size_le rfl) fun notification t₈ h₈ => ?_
  refine .bind (ends_alloc_added h₈.size_le rfl) fun notify t₉ h₉ => ?_
  -- the condition is complete in `t₃` and the arguments in `t₆`, and both are carried on to `t₉`
  have h₃₉ : ∀ {x k}, IsNew t.cells.size t₃ x k → IsNew t.cells.size t₉ x k := fun h =>
    h₉.keep (h₈.keep (h₇.keep (h₆.keep (h₅.keep (h₄.keep h)))))
  have h₆₉ : ∀ {x k}, IsNew t.cells.size t₆ x k → IsNew t.cells.size t₉ x k := fun h => h₉.keep (h₈.keep (h₇.keep h))
  have hnotify : Notifies backing observer o.paramName t.cells.size t₉ notify :=
    ⟨left, right, cond, receiver, old, new, call, notification, h₃₉ (h₃.keep (h₂.keep h₁.new)), h₃₉ (h₃.keep h₂.new),
      h₃₉ h₃.new, h₆₉ (h₆.keep (h₅.keep h₄.new)), h₆₉ (h₆.keep h₅.new), h₆₉ h₆.new, h₉.keep (h₈.keep h₇.new),
      h₉.keep h₈.new, h₉.new⟩
  refine .bind (ends_alloc_added h₉.size_le rfl) fun target t₁₀ h₁₀ => ?_
  refine .bind (ends_alloc_added h₁₀.size_le rfl) fun source t₁₁ h₁₁ => ?_
  refine .bind (ends_alloc_added h₁₁.size_le rfl) fun assign t₁₂ h₁₂ => ?_
  refine .bind (ends_alloc_added h₁₂.size_le rfl) fun store t₁₃ h₁₃ => ?_
  have hstore : Stores backing o.paramName t.cells.size t₁₃ store :=
    ⟨target, source, assign, h₁₃.keep (h₁₂.keep (h₁₁.keep h₁₀.new)), h₁₃.keep (h₁₂.keep h₁₁.new),
      h₁₃.keep h₁₂.new, h₁₃.new⟩
  have hle := Nat.le_refl t.cells.size
  refine Ends.mono (ends_alloc_added h₁₃.size_le rfl) fun a t₁₄ h₁₄ => ⟨h₁₄.size_le, notify, store, ?_, ?_, h₁₄.new⟩
  · exact ((((hnotify.keep h₁₀.bare_eq hle).keep h₁₁.bare_eq hle).keep h₁₂.bare_eq hle).keep h₁₃.bare_eq hle).keep
      h₁₄.bare_eq hle
  · exact hstore.keep h₁₄.bare_eq hle

/-- **A property that gives its setter no body gets a default setter.** -/
theorem ends_addSetter_default {rest : List NodeId} (hf : Forest t rest) (hty : CopiesTo (fun _ => True) t d.ty)
    (hbody : d.setter.body = none) (p : Pos) :
    Ends (addSetter o d p) t (fun r t' => IsDefaultSetter o d t.cells.size t' r.1) := by
  unfold addSetter
  rw [hbody]
  refine .bind ((ends_defaultSetterBody False (Q := fun _ => True) (fun _ _ _ => trivial) hf p _ _).and
    (ends_defaultSetterBody_code p _ _)) fun body t₁ ⟨h₁, hsize, hcode⟩ => ?_
  obtain ⟨node, hnode⟩ := contains_iff.1 (h₁.forest.contained body List.mem_cons_self)
  refine .bind (ends_stopLine hnode p) ?_
  rintro _ t₁ ⟨rfl, rfl⟩
  have hty₁ : CopiesTo (fun _ => True) t₁ d.ty := ⟨h₁.toBuilt.contains hty.1, fun _ _ _ _ _ => trivial⟩
  refine .bind (ends_copyErased False 0 h₁.forest hty₁) fun ty t₂ h₂ => ?_
  have hcode₂ := hcode.keep (fun x _ hx => h₂.toBuilt.keep hx) (Nat.le_refl _)
  refine .bind (ends_alloc_added (Nat.le_trans hsize h₂.toBuilt.size_le) rfl) fun param t₃ h₃ => ?_
  have hcode₃ := hcode₂.keep h₃.bare_eq (Nat.le_refl _)
  refine .bind (ends_alloc_added h₃.size_le rfl) fun result t₄ h₄ => ?_
  have hcode₄ := hcode₃.keep h₄.bare_eq (Nat.le_refl _)
  obtain ⟨node', hnode'⟩ := contains_iff.1 hcode₄.contains
  refine .bind (ends_bind_node hnode' (ends_alloc_added h₄.size_le rfl)) fun method t₅ h₅ => .pure ?_
  exact ⟨_, param, _, body, hcode₄.keep h₅.bare_eq (Nat.le_refl _), h₅.keep (h₄.keep h₃.new), rfl, h₅.new, rfl, rfl⟩

end UniformAccess.Lowering
