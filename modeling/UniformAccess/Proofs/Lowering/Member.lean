import UniformAccess.Lowering.Member
import UniformAccess.Proofs.Position
import UniformAccess.Proofs.Tree.Copy
/-!
# What the members of a property are made of

Every step of lowering a property ends well and builds what it says: from the type of the property, which stays, and
from its initial value and its bodies, which are used up, come four new roots (`ends_lowerProperty`). Then the type and
the annotations go. What is new is of the kinds in `Q`, which has to hold of the type and of all kinds but properties
and accesses.
-/
namespace UniformAccess.Lowering

open UniformAccess.Tree

variable {t t' : Tree} {rest new : List NodeId} {Q : Kind → Prop} {o : LoweringOptions} {d : PropertyDecl} {ty : NodeId}
  {bound : Nat} (c : Prop)

/-- The kinds that lowering makes of its own. -/
def Allows (Q : Kind → Prop) : Prop := ∀ k : Kind, k.isProperty = false → k.isAccess = false → Q k

/-! ## What is made -/

/-- A field that was not among the first `n` nodes, with a single variable of the given name. -/
def IsField (n : Nat) (t : Tree) (id : NodeId) (name : String) : Prop :=
  n ≤ id.index ∧ ∃ decl var initial, t.bare? id = some (.field decl) ∧ decl.vars = [var] ∧ n ≤ var.index ∧
    t.bare? var = some (.var (.synthetic name) initial)

/-- A method of the given name that was not among the first `n` nodes. -/
def IsMethod (n : Nat) (t : Tree) (id : NodeId) (name : String) : Prop :=
  n ≤ id.index ∧ ∃ decl, t.bare? id = some (.method decl) ∧ decl.name = .synthetic name

/-- **The members of a property called `name`**, which are not among the first `n` nodes. -/
structure Made (o : LoweringOptions) (name : String) (n : Nat) (t : Tree) (s : Synthesized) : Prop where
  backing : IsField n t s.backing (o.backingName name)
  observer : IsField n t s.observer (o.observerFieldName name)
  setter : IsMethod n t s.setter (setterName name)
  getter : IsMethod n t s.getter (getterName name)

/-- A field that was not among the first `n` nodes, with a single variable of the given initial value. -/
def StartsWith (n : Nat) (t : Tree) (id : NodeId) (initial : Option NodeId) : Prop :=
  n ≤ id.index ∧ ∃ decl var name, t.bare? id = some (.field decl) ∧ decl.vars = [var] ∧ n ≤ var.index ∧
    t.bare? var = some (.var name initial)

/-- A method with the given body that was not among the first `n` nodes. -/
def HasBody (n : Nat) (t : Tree) (id body : NodeId) : Prop :=
  n ≤ id.index ∧ ∃ decl, t.bare? id = some (.method decl) ∧ decl.body = some body

/-- **What the members took over from their property**: the initial value, and the bodies of its accessors. -/
structure Inherits (d : PropertyDecl) (n : Nat) (t : Tree) (s : Synthesized) : Prop where
  initial : StartsWith n t s.backing d.initial
  setter : ∀ body ∈ d.setter.body, HasBody n t s.setter body
  getter : ∀ body ∈ d.getter.body, HasBody n t s.getter body

section

variable {n n' : Nat} {id : NodeId} {name : String} {s : Synthesized}

-- later changes leave the nodes from `n` on what they are
variable (hkeep : ∀ x, n ≤ x.index → t.contains x = true → t'.bare? x = t.bare? x)
include hkeep

theorem IsField.keep (h : IsField n t id name) (hn : n' ≤ n) : IsField n' t' id name := by
  obtain ⟨hid, decl, var, initial, hk, hvars, hvar, hkvar⟩ := h
  refine ⟨Nat.le_trans hn hid, decl, var, initial, ?_, hvars, Nat.le_trans hn hvar, ?_⟩
  · rw [hkeep id hid (contains_of_bare? hk), hk]
  · rw [hkeep var hvar (contains_of_bare? hkvar), hkvar]

theorem IsMethod.keep (h : IsMethod n t id name) (hn : n' ≤ n) : IsMethod n' t' id name := by
  obtain ⟨hid, decl, hk, hname⟩ := h
  exact ⟨Nat.le_trans hn hid, decl, by rw [hkeep id hid (contains_of_bare? hk), hk], hname⟩

theorem Made.keep (h : Made o name n t s) (hn : n' ≤ n) : Made o name n' t' s :=
  ⟨h.backing.keep hkeep hn, h.observer.keep hkeep hn, h.setter.keep hkeep hn, h.getter.keep hkeep hn⟩

theorem StartsWith.keep {initial : Option NodeId} (h : StartsWith n t id initial) (hn : n' ≤ n) :
    StartsWith n' t' id initial := by
  obtain ⟨hid, decl, var, name, hk, hvars, hvar, hkvar⟩ := h
  refine ⟨Nat.le_trans hn hid, decl, var, name, ?_, hvars, Nat.le_trans hn hvar, ?_⟩
  · rw [hkeep id hid (contains_of_bare? hk), hk]
  · rw [hkeep var hvar (contains_of_bare? hkvar), hkvar]

theorem HasBody.keep {body : NodeId} (h : HasBody n t id body) (hn : n' ≤ n) : HasBody n' t' id body := by
  obtain ⟨hid, decl, hk, hbody⟩ := h
  exact ⟨Nat.le_trans hn hid, decl, by rw [hkeep id hid (contains_of_bare? hk), hk], hbody⟩

theorem Inherits.keep (h : Inherits d n t s) (hn : n' ≤ n) : Inherits d n' t' s :=
  ⟨h.initial.keep hkeep hn, fun body hbody => (h.setter body hbody).keep hkeep hn,
    fun body hbody => (h.getter body hbody).keep hkeep hn⟩

end

/-- A field is made by adding its variable and then itself. -/
theorem bare?_add_field (loc loc' : Loc) (name : String) (initial : Option NodeId) (decl : VarsDecl) :
    let t₁ := t.add loc (.var (.synthetic name) initial)
    (t₁.add loc' (.field decl)).bare? t₁.fresh = some (.field decl) ∧
      (t₁.add loc' (.field decl)).bare? t.fresh = some (.var (.synthetic name) initial) := by
  have hfresh : t.fresh ≠ (t.add loc (.var (.synthetic name) initial)).fresh := ne_fresh_of_index_lt (by simp [fresh])
  constructor
  · rw [bare?_add, if_pos rfl]
    rfl
  · rw [bare?_add, if_neg hfresh, bare?_add, if_pos rfl]
    rfl

theorem IsField.add {n : Nat} (hn : n ≤ t.cells.size) (loc loc' : Loc) (name : String) (initial : Option NodeId)
    {decl : VarsDecl} (hvars : decl.vars = [t.fresh]) :
    IsField n ((t.add loc (.var (.synthetic name) initial)).add loc' (.field decl))
      (t.add loc (.var (.synthetic name) initial)).fresh name := by
  obtain ⟨hfield, hvar⟩ := bare?_add_field (t := t) loc loc' name initial decl
  exact ⟨by simp [fresh]; omega, decl, t.fresh, initial, hfield, hvars, hn, hvar⟩

theorem StartsWith.add {n : Nat} (hn : n ≤ t.cells.size) (loc loc' : Loc) (name : String) (initial : Option NodeId)
    {decl : VarsDecl} (hvars : decl.vars = [t.fresh]) :
    StartsWith n ((t.add loc (.var (.synthetic name) initial)).add loc' (.field decl))
      (t.add loc (.var (.synthetic name) initial)).fresh initial := by
  obtain ⟨hfield, hvar⟩ := bare?_add_field (t := t) loc loc' name initial decl
  exact ⟨by simp [fresh]; omega, decl, t.fresh, .synthetic name, hfield, hvars, hn, hvar⟩

/-! ## Where it stands -/

/-- What moving a body to `p` makes of the nodes in it, if the body has a position. -/
def bodyMove (start : Option Pos) (p : Pos) (accessor : Loc) : Node → Node :=
  match start with
  | none => id
  | some start => Node.shifted (p.line - start.line) (p.col - ((accessor.start?.map (·.col)).getD start.col : Nat))

theorem bare_bodyMove (start : Option Pos) (p : Pos) (accessor : Loc) (n : Node) :
    (bodyMove start p accessor n).kind.bare = n.kind.bare := by
  cases start with
  | none => rfl
  | some start => exact Node.bare_mapLocs _ n

theorem unlinked_bodyMove (start : Option Pos) (p : Pos) (accessor : Loc) (n : Node) :
    (bodyMove start p accessor n).unlinked = bodyMove start p accessor n.unlinked := by
  cases start <;> rfl

/-- **A body was moved to `p`**, with everything in it. -/
def BodyMoved (body : NodeId) (p : Pos) (accessor : Loc) (t t' : Tree) : Prop :=
  ∀ x, t.Reaches body x → t'.unlinked? x = (t.unlinked? x).map (bodyMove (t.start? body) p accessor)

/-- **The method of an accessor stands at `p`**, and stops on line `stop` at the latest. If the accessor has a body, the
method holds it, and it was moved there. -/
structure MethodAt (a : Accessor) (p : Pos) (stop : Nat) (t : Tree) (m : NodeId) (t' : Tree) : Prop where
  loc : ∃ q, t'.loc? m = some (.span ⟨p, q⟩) ∧ p.line ≤ q.line ∧ q.line ≤ stop
  held : ∀ body ∈ a.body, body ∈ t'.children m
  moved : ∀ body ∈ a.body, BodyMoved body p a.loc t t'

/-- **Where the members of a property stand**: each on lines of its own, from `line` on and before `next`. -/
structure Arranged (d : PropertyDecl) (line col next : Nat) (t : Tree) (s : Synthesized) (t' : Tree) : Prop where
  backing : t'.loc? s.backing = some (.point ⟨line, col⟩)
  observer : t'.loc? s.observer = some (.point ⟨line + 1, col⟩)
  accessors : ∃ stop, MethodAt d.setter ⟨line + 2, col⟩ stop t s.setter t' ∧
    MethodAt d.getter ⟨stop + 1, col⟩ (next - 1) t s.getter t'

section

variable {a : Accessor} {p : Pos} {stop line col next : Nat} {t'' : Tree} {m body : NodeId} {s : Synthesized}

theorem BodyMoved.reaches {accessor : Loc} {x : NodeId} (h : BodyMoved body p accessor t t') (hx : t.Reaches body x) :
    t'.Reaches body x := by
  refine hx.transfer fun y hy => children_congr ?_
  rw [bare?_eq_unlinked?, h y hy, bare?_eq_unlinked?, Option.map_map]
  exact congrArg (Option.map · _) (funext fun n => bare_bodyMove _ _ _ n)

theorem BodyMoved.keep {accessor : Loc} (h : BodyMoved body p accessor t t')
    (hkeep : ∀ x, t'.Reaches body x → t''.unlinked? x = t'.unlinked? x) :
    BodyMoved body p accessor t t'' := fun x hx => by
  rw [hkeep x (h.reaches hx), h x hx]

/-- Where the body was before does not matter, as long as it was the same. -/
theorem BodyMoved.source {accessor : Loc} (h : BodyMoved body p accessor t t')
    (hsame : ∀ x, t''.Reaches body x → t.get? x = t''.get? x) : BodyMoved body p accessor t'' t' := by
  intro x hx
  have hx' : t.Reaches body x := hx.transfer fun y hy => children_congr (by unfold bare? kind?; rw [hsame y hy])
  have hstart : t.start? body = t''.start? body := by
    unfold start?
    rw [hsame body .refl]
  rw [h x hx', unlinked?_congr (hsame x hx), hstart]

theorem MethodAt.source (h : MethodAt a p stop t m t')
    (hsame : ∀ body ∈ a.body, ∀ x, t''.Reaches body x → t.get? x = t''.get? x) : MethodAt a p stop t'' m t' :=
  { h with moved := fun body hbody => (h.moved body hbody).source (hsame body hbody) }

/-- Later changes may link what the method holds to others. -/
theorem MethodAt.keep (h : MethodAt a p stop t m t') (hkeep : ∀ x, t'.Reaches m x → t''.unlinked? x = t'.unlinked? x) :
    MethodAt a p stop t m t'' where
  loc := by rw [loc?_eq_unlinked?, hkeep m .refl, ← loc?_eq_unlinked?]; exact h.loc
  held body hbody := by
    rw [children_congr (show t''.bare? m = t'.bare? m by rw [bare?_eq_unlinked?, hkeep m .refl, ← bare?_eq_unlinked?])]
    exact h.held body hbody
  moved body hbody := (h.moved body hbody).keep fun x hx => hkeep x (hx.head (h.held body hbody))

theorem Arranged.source (h : Arranged d line col next t s t')
    (hsame : ∀ body, body ∈ d.setter.body ∨ body ∈ d.getter.body → ∀ x, t''.Reaches body x → t.get? x = t''.get? x) :
    Arranged d line col next t'' s t' := by
  obtain ⟨stop, hset, hget⟩ := h.accessors
  exact { h with accessors := ⟨stop, hset.source fun body hbody => hsame body (.inl hbody),
    hget.source fun body hbody => hsame body (.inr hbody)⟩ }

theorem Arranged.keep (h : Arranged d line col next t s t')
    (hkeep : ∀ m ∈ s.toList, ∀ x, t'.Reaches m x → t''.unlinked? x = t'.unlinked? x) :
    Arranged d line col next t s t'' := by
  have hloc : ∀ {m}, m ∈ s.toList → t''.loc? m = t'.loc? m := fun {m} hm => by
    rw [loc?_eq_unlinked?, hkeep m hm m .refl, ← loc?_eq_unlinked?]
  obtain ⟨stop, hset, hget⟩ := h.accessors
  refine ⟨?_, ?_, stop, hset.keep (hkeep _ ?_), hget.keep (hkeep _ ?_)⟩
  · rw [hloc (by simp [Synthesized.toList]), h.backing]
  · rw [hloc (by simp [Synthesized.toList]), h.observer]
  · simp [Synthesized.toList]
  · simp [Synthesized.toList]

end

/-! ## Types -/

theorem ends_copyErased (bound : Nat) (hf : Forest t rest) (hty : CopiesTo Q t ty) :
    Ends (copyErased ty) t (fun a t' => Laid c bound Q rest t [a] t') := by
  unfold copyErased
  refine .bind (.adaptExcept (ends_copy hf hty)) fun a t₁ ⟨h₁, _⟩ => ?_
  exact .bind_modify (.pure (.eraseLocs h₁ (fun _ m hm => by cases hm)))

theorem ends_observerType (bound : Nat) (hQ : Allows Q) (hf : Forest t rest) (hty : CopiesTo Q t ty) :
    Ends (observerType o ty) t (fun a t' => Laid c bound Q rest t [a] t') := by
  have hout : ∀ arg t₁, Laid c bound Q rest t [arg] t₁ →
      Ends (alloc .synthetic (.classType none o.observerName [arg]) : Edit LowerError NodeId) t₁
        (fun a t' => Laid c bound Q rest t [a] t') := fun arg t₁ h₁ =>
    h₁.ends_alloc [arg] (.refl _) (hQ _ rfl rfl) (by simp [Node.lines, Kind.innerLocs])
  unfold observerType
  refine .bind_get ?_
  split
  · exact .bind (Laid.ends_alloc [] (.nil hf) .nil (hQ _ rfl rfl) (by simp [Node.lines, Kind.innerLocs])) hout
  · exact .bind (ends_copyErased c bound hf hty) hout

/-! ## Fields -/

theorem ends_backingField (hQ : Allows Q) (hf : Forest t (d.initial.toList ++ rest)) (hty : CopiesTo Q t d.ty)
    (p : Pos) : Ends (backingField o d p) t (fun a t' => Laid c p.line Q rest t [a] t' ∧
      IsField t.cells.size t' a (o.backingName d.name.name) ∧ StartsWith t.cells.size t' a d.initial ∧
      t'.loc? a = some (.point p)) := by
  have hout : ∀ ty t₁, Laid c p.line Q rest t (d.initial.toList ++ [ty]) t₁ →
      Ends (do
        let var ← alloc .synthetic (.var (.synthetic (o.backingName d.name.name)) d.initial)
        alloc (.point p)
          (.field { modifiers := { visibility := some .priv, isStatic := d.modifiers.isStatic }, ty, vars := [var] })
        : Edit LowerError NodeId) t₁ (fun a t' => Laid c p.line Q rest t [a] t' ∧
          IsField t.cells.size t' a (o.backingName d.name.name) ∧ StartsWith t.cells.size t' a d.initial ∧
          t'.loc? a = some (.point p)) := fun ty t₁ h₁ => by
    refine .bind (h₁.ends_alloc_fresh d.initial.toList ?_ (hQ _ rfl rfl) ?_) ?_
    · cases d.initial <;> exact .refl _
    · simp [Node.lines, Kind.innerLocs, Ident.synthetic]
    · rintro var t₂ ⟨h₂, rfl, rfl⟩
      exact .and (h₂.ends_alloc [_, ty] (.swap _ _ _) (hQ _ rfl rfl) (by simp [Node.lines, Kind.innerLocs]))
        (Tree.ends_alloc ⟨.add h₁.size_le _ _ _ _ rfl, .add h₁.size_le _ _ _ _ rfl, by rw [loc?_add, if_pos rfl]⟩)
  unfold backingField
  refine .bind (ends_copyErased c p.line hf hty) fun ty t₁ h₁ => ?_
  have hb₁ : Built Q rest t (d.initial.toList ++ [ty]) t₁ :=
    (Built.trans [] (.refl hf) h₁.toBuilt).perm List.perm_append_comm
  cases hinit : d.initial with
  | none =>
    rw [hinit] at hb₁ hout
    exact hout ty t₁ ⟨hb₁, h₁.above⟩
  | some initial =>
    rw [hinit] at hb₁ hout
    exact .bind_modify (hout ty _ (.eraseLocs hb₁ h₁.above))

theorem ends_observerField (hQ : Allows Q) (hf : Forest t rest) (hty : CopiesTo Q t d.ty) (p : Pos) :
    Ends (observerField o d p) t (fun a t' => Laid c p.line Q rest t [a] t' ∧
      IsField t.cells.size t' a (o.observerFieldName d.name.name) ∧ t'.loc? a = some (.point p)) := by
  unfold observerField
  refine .bind (ends_observerType c p.line hQ hf hty) fun ty t₁ h₁ => ?_
  refine .bind (h₁.ends_alloc_fresh [] .nil (hQ _ rfl rfl) (by simp [Node.lines, Kind.innerLocs, Ident.synthetic])) ?_
  rintro var t₂ ⟨h₂, rfl, rfl⟩
  exact .and (h₂.ends_alloc [_, ty] (.swap _ _ _) (hQ _ rfl rfl) (by simp [Node.lines, Kind.innerLocs]))
    (Tree.ends_alloc ⟨.add h₁.size_le _ _ _ _ rfl, by rw [loc?_add, if_pos rfl]⟩)

/-! ## Bodies -/

/-- The line on which a node that was put at `p` stops. -/
def stopLineOf (n : Node) (p : Pos) : Nat := (n.loc.stop?.map (max ·.line p.line)).getD p.line

theorem stopLineOf_ge (n : Node) (p : Pos) : p.line ≤ stopLineOf n p := by
  unfold stopLineOf
  cases n.loc.stop? with
  | none => exact Nat.le_refl _
  | some stop => exact Nat.le_max_right _ _

theorem methodStop_le_stopLineOf (n : Node) (p : Pos) :
    ((n.loc.stop?.filter (p < ·)).getD p).line ≤ stopLineOf n p := by
  unfold stopLineOf
  cases n.loc.stop? with
  | none => exact Nat.le_refl _
  | some stop =>
    by_cases hlt : p < stop
    · simp only [Option.filter, hlt, decide_true, if_true, Option.map_some, Option.getD_some]
      exact Nat.le_max_left _ _
    · simp only [Option.filter, hlt, decide_false, Bool.false_eq_true, if_false, Option.map_some, Option.getD_some,
        Option.getD_none]
      exact Nat.le_max_right _ _

theorem methodStop_ge (n : Node) (p : Pos) : p.line ≤ ((n.loc.stop?.filter (p < ·)).getD p).line := by
  cases n.loc.stop? with
  | none => exact Nat.le_refl _
  | some stop =>
    by_cases hlt : p < stop
    · simp only [Option.filter, hlt, decide_true, if_true, Option.getD_some]
      exact Pos.line_le_line hlt.le
    · simp [Option.filter, hlt]

theorem stopLineOf_shifted {n : Node} {p stop : Pos} (h : n.loc.stop? = some stop) (lines cols : Int) :
    stopLineOf (n.shifted lines cols) p = max (Pos.clamp (stop.line + lines)) p.line := by
  unfold stopLineOf Node.shifted Node.mapLocs
  cases hloc : n.loc with
  | synthetic => rw [hloc] at h; cases h
  | span s => rw [hloc] at h; cases h; rfl

/-- **A body has been put at `p`.** It reaches no further down than it says, if that is asked for. -/
structure IsBody (c : Prop) (Q : Kind → Prop) (rest : List NodeId) (t : Tree) (p : Pos) (body : NodeId) (t' : Tree) :
    Prop extends Built Q rest t [body] t' where
  above : c → ∀ node, t'.get? body = some node → Above (stopLineOf node p) t' body

theorem ends_bareName (hQ : Allows Q) (h : Laid c bound Q rest t new t') (name : String) :
    Ends (bareName name) t' (fun a t'' => Laid c bound Q rest t (a :: new) t'') :=
  h.ends_alloc [] .nil (hQ _ rfl rfl) (by simp [Node.lines, Kind.innerLocs])

/-- The last step of making a body: a block from `p` to `stop`. -/
theorem ends_block {p stop : Pos} (hQ : Allows Q) (stmts : List NodeId) (h : Laid c stop.line Q rest t stmts.reverse t')
    (hp : p.line ≤ stop.line) :
    Ends (alloc (.span ⟨p, stop⟩) (.block stmts) : Edit LowerError NodeId) t' (IsBody c Q rest t p) := by
  have hchildren : (Kind.block stmts).children = stmts := by simp [Kind.children, Kind.slots, Slot.children]
  have hk : (Kind.block stmts).children.Perm stmts.reverse := by
    rw [hchildren]
    exact stmts.reverse_perm.symm
  have hfresh : t'.fresh ∉ (Kind.block stmts).children := fun hmem =>
    ne_fresh_of_contains (h.forest.contained _ (List.mem_append_left _ (hk.mem_iff.1 hmem))) rfl
  rw [← List.append_nil stmts.reverse] at h
  have h' := h.add _ (.span ⟨p, stop⟩) hk (hQ _ rfl rfl) (by simp [Node.lines, Kind.innerLocs, hp])
  refine Tree.ends_alloc ⟨h'.toBuilt, fun hc node hnode => ?_⟩
  rw [get?_add_fresh _ hfresh] at hnode
  cases hnode
  exact (h'.above hc _ List.mem_cons_self).mono (Nat.le_max_left _ _)

theorem ends_defaultSetterBody (hQ : Allows Q) (hf : Forest t rest) (p : Pos) (backing observer : String) :
    Ends (defaultSetterBody o p backing observer) t (IsBody c Q rest t p) := by
  have h₀ : Laid c (p.line + 3) Q rest t [] t := .nil hf
  unfold defaultSetterBody
  refine .bind (ends_bareName c hQ h₀ _) fun left t₁ h₁ => ?_
  refine .bind (h₁.ends_alloc [] .nil (hQ _ rfl rfl) (by simp [Node.lines, Kind.innerLocs])) fun right t₂ h₂ => ?_
  refine .bind (h₂.ends_alloc [right, left] (.swap _ _ _) (hQ _ rfl rfl) (by simp [Node.lines, Kind.innerLocs]))
    fun cond t₃ h₃ => ?_
  refine .bind (ends_bareName c hQ h₃ _) fun receiver t₄ h₄ => ?_
  refine .bind (ends_bareName c hQ h₄ _) fun old t₅ h₅ => ?_
  refine .bind (ends_bareName c hQ h₅ _) fun new t₆ h₆ => ?_
  refine .bind (h₆.ends_alloc [new, old, receiver] (List.reverse_perm [new, old, receiver]) (hQ _ rfl rfl)
    (by simp [Node.lines, Kind.innerLocs, Ident.synthetic])) fun call t₇ h₇ => ?_
  refine .bind (h₇.ends_alloc [call] (.refl _) (hQ _ rfl rfl) (by simp [Node.lines, Kind.innerLocs]))
    fun notification t₈ h₈ => ?_
  refine .bind (h₈.ends_alloc [notification, cond] (.swap _ _ _) (hQ _ rfl rfl) (by simp [Node.lines, Kind.innerLocs]))
    fun notify t₉ h₉ => ?_
  refine .bind (ends_bareName c hQ h₉ _) fun target t₁₀ h₁₀ => ?_
  refine .bind (ends_bareName c hQ h₁₀ _) fun value t₁₁ h₁₁ => ?_
  refine .bind (h₁₁.ends_alloc [value, target] (.swap _ _ _) (hQ _ rfl rfl) (by simp [Node.lines, Kind.innerLocs]))
    fun assign t₁₂ h₁₂ => ?_
  refine .bind (h₁₂.ends_alloc [assign] (.refl _) (hQ _ rfl rfl) (by simp [Node.lines, Kind.innerLocs]))
    fun store t₁₃ h₁₃ => ?_
  exact ends_block c hQ [notify, store] h₁₃ (by simp)

theorem ends_defaultGetterBody (hQ : Allows Q) (hf : Forest t rest) (p : Pos) (backing : String) :
    Ends (defaultGetterBody o p backing) t (IsBody c Q rest t p) := by
  have h₀ : Laid c (p.line + 2) Q rest t [] t := .nil hf
  unfold defaultGetterBody
  refine .bind (ends_bareName c hQ h₀ _) fun value t₁ h₁ => ?_
  refine .bind (h₁.ends_alloc [value] (.refl _) (hQ _ rfl rfl) (by simp [Node.lines, Kind.innerLocs]))
    fun result t₂ h₂ => ?_
  exact ends_block c hQ [result] h₂ (by simp)

/-- **A body that lies above the line on which it stops.** -/
def IsTall (t : Tree) (body : NodeId) : Prop :=
  ∃ node stop, t.get? body = some node ∧ node.loc.stop? = some stop ∧ Above stop.line t body

theorem ends_relocate {body : NodeId} (hf : Forest t (body :: rest)) (hbody : c → IsTall t body) (p : Pos)
    (accessor : Loc) : Ends (relocate body p accessor) t (fun body' t' => IsBody c Q rest t p body' t' ∧
      body' = body ∧ BodyMoved body p accessor t t') := by
  have hcontains := hf.contained body List.mem_cons_self
  obtain ⟨node, hnode⟩ := contains_iff.1 hcontains
  have h : Built Q rest t [body] t := .refl hf
  have hstart? : t.start? body = node.loc.start? := start?_of_get? hnode
  unfold relocate
  refine ends_bind_node hnode ?_
  cases hstart : node.loc.start? with
  | none =>
    refine .pure ⟨⟨h, fun hc => ?_⟩, rfl, fun x _ => by rw [hstart?, hstart]; exact Option.map_id.symm ▸ rfl⟩
    obtain ⟨node', stop, hnode', hstop, -⟩ := hbody hc
    obtain rfl : node = node' := Option.some.inj (hnode.symm.trans hnode')
    cases hloc : node.loc with
    | synthetic => rw [hloc] at hstop; cases hstop
    | span s => rw [hloc] at hstart; cases hstart
  | some start =>
    refine .bind_modify (.pure ⟨⟨h.shift List.mem_cons_self _ _, fun hc node₁ hnode₁ x n hx hn line hline => ?_⟩, rfl,
      fun x hx => ?_⟩)
    rotate_left
    · unfold unlinked?
      rw [hf.get?_shift hcontains hx, hstart?, hstart, Option.map_map, Option.map_map]
      rfl
    obtain ⟨node', stop, hnode', hstop, habove⟩ := hbody hc
    obtain rfl : node = node' := Option.some.inj (hnode.symm.trans hnode')
    rw [(Moved.shift t body _ _).reaches_iff] at hx
    rw [hf.get?_shift hcontains .refl, hnode] at hnode₁
    rw [hf.get?_shift hcontains hx] at hn
    cases hnode₁
    obtain ⟨m, hm, rfl⟩ := Option.map_eq_some_iff.1 hn
    rw [Node.lines_shifted] at hline
    obtain ⟨l, hl, rfl⟩ := List.mem_map.1 hline
    have hle : l ≤ stop.line := habove x m hx hm l hl
    rw [stopLineOf_shifted hstop]
    exact Nat.le_trans (Pos.clamp_mono (by omega)) (Nat.le_max_left _ _)

theorem ends_stopLine {body : NodeId} {node : Node} (hbody : t.get? body = some node) (p : Pos) :
    Ends (stopLine body p) t (fun line t' => line = stopLineOf node p ∧ t' = t) :=
  ends_bind_node hbody (.pure ⟨rfl, rfl⟩)

theorem IsBody.laid {p : Pos} {body : NodeId} {node : Node} (h : IsBody c Q rest t p body t')
    (hnode : t'.get? body = some node) : Laid c (stopLineOf node p) Q rest t [body] t' := by
  refine ⟨h.toBuilt, fun hc m hm => ?_⟩
  rw [List.mem_singleton.1 hm]
  exact h.above hc node hnode

/-! ## Methods -/

/-- **The method that `m` became** for an accessor, of the given name. -/
structure IsMethodOf (a : Accessor) (name : String) (p : Pos) (stop : Nat) (t : Tree) (m : NodeId) (t' : Tree) :
    Prop where
  made : IsMethod t.cells.size t' m name
  hasBody : ∀ body ∈ a.body, HasBody t.cells.size t' m body
  place : MethodAt a p stop t m t'

theorem ends_addMethod {a : Accessor} {body : NodeId} {node : Node} {m : MethodDecl} {p : Pos} (hQ : Allows Q)
    (cs : List NodeId) (h : Laid c (stopLineOf node p) Q rest t cs t') (hbody : t'.get? body = some node)
    (hm : (Kind.method m).children.Perm cs) {name : String} (hname : m.name = .synthetic name)
    (hmbody : m.body = some body) (htaken : ∀ b ∈ a.body, b = body ∧ BodyMoved b p a.loc t t') :
    Ends (addMethod p body m) t' (fun x t'' => Laid c (stopLineOf node p) Q rest t [x] t'' ∧
      IsMethodOf a name p (stopLineOf node p) t x t'') := by
  have hp := stopLineOf_ge node p
  have hstop := methodStop_le_stopLineOf node p
  unfold addMethod
  refine ends_bind_node hbody ?_
  rw [← List.append_nil cs] at h
  refine (h.ends_alloc cs hm (hQ _ rfl rfl) ?_).and (Tree.ends_alloc ?_)
  · simp [Node.lines, Kind.innerLocs, hname, Ident.synthetic, hp, hstop]
  generalize hloc : ((node.loc.stop?.filter (p < ·)).getD p) = stop at hstop
  have hbare : (t'.add (.span ⟨p, stop⟩) (.method m)).bare? t'.fresh =
      some (.method { m with name := ⟨m.name.name, .synthetic⟩ }) := by
    rw [bare?_add, if_pos rfl]
    rfl
  refine ⟨⟨h.size_le, _, hbare, by rw [hname]; rfl⟩, fun b hb => ⟨h.size_le, _, hbare, ?_⟩, ⟨stop, ?_, ?_, hstop⟩,
    fun b hb => ?_, fun b hb => ?_⟩
  · rw [(htaken b hb).1]
    exact hmbody
  · rw [loc?_add, if_pos rfl]
  · rw [← hloc]
    exact methodStop_ge node p
  · rw [children_of_bare? hbare, (htaken b hb).1]
    simp [Kind.children, Kind.slots, hmbody, Slot.ofOption, Slot.children]
  · -- what is in the body was there before the method
    refine (htaken b hb).2.keep fun x hx => unlinked?_add _ _ (ne_fresh_of_contains ?_)
    rw [(htaken b hb).1] at hx
    exact h.forest.contains_of_reaches (contains_iff.2 ⟨node, hbody⟩) hx

theorem ends_addSetter (hQ : Allows Q) (hf : Forest t (d.setter.body.toList ++ rest)) (hty : CopiesTo Q t d.ty)
    (hbody : c → ∀ body ∈ d.setter.body, IsTall t body) (p : Pos) :
    Ends (addSetter o d p) t (fun r t' => p.line ≤ r.2 ∧ Laid c r.2 Q rest t [r.1] t' ∧
      IsMethodOf d.setter (setterName d.name.name) p r.2 t r.1 t') := by
  have hout : ∀ body t₁, IsBody c Q rest t p body t₁ →
      (∀ b ∈ d.setter.body, b = body ∧ BodyMoved b p d.setter.loc t t₁) → Ends (do
        let line ← stopLine body p
        let ty ← copyErased d.ty
        let param ← alloc .synthetic (.param { ty := some ty, name := .synthetic o.paramName })
        let result ← alloc .synthetic .voidType
        let method ← addMethod p body
          { modifiers := memberModifiers d d.setter.visibility, result, name := .synthetic (setterName d.name.name),
            params := [param], body := some body }
        return (method, line) : Edit LowerError (NodeId × Nat)) t₁ (fun r t' => p.line ≤ r.2 ∧
          Laid c r.2 Q rest t [r.1] t' ∧ IsMethodOf d.setter (setterName d.name.name) p r.2 t r.1 t') := by
    intro body t₁ h₁ htaken
    obtain ⟨node, hnode⟩ := contains_iff.1 (h₁.forest.contained body List.mem_cons_self)
    refine .bind (ends_stopLine hnode p) ?_
    rintro _ _ ⟨rfl, rfl⟩
    -- up to the method, the body is left alone
    refine .bind (ends_copyErased c (stopLineOf node p) h₁.forest (hty.built h₁.toBuilt)) fun ty t₂ h₂ => ?_
    refine .bind (h₂.ends_alloc [ty] (.refl _) (hQ _ rfl rfl)
      (by simp [Node.lines, Kind.innerLocs, Ident.synthetic])) fun param t₃ h₃ => ?_
    refine .bind (h₃.ends_alloc [] .nil (hQ _ rfl rfl) (by simp [Node.lines, Kind.innerLocs])) fun result t₄ h₄ => ?_
    have hnode₄ : t₄.get? body = some node := (h₄.get_eq body List.mem_cons_self body .refl).trans hnode
    refine .bind (ends_addMethod c hQ [result, param, body] ((h₁.laid c hnode).trans [] h₄) hnode₄ (.refl _) rfl rfl
      fun b hb => ⟨(htaken b hb).1, (htaken b hb).2.keep fun x hx => unlinked?_congr ?_⟩) fun method t₅ h₅ => ?_
    · rw [(htaken b hb).1] at hx
      exact h₄.get_eq body List.mem_cons_self x hx
    exact .pure ⟨stopLineOf_ge node p, h₅⟩
  unfold addSetter
  cases hset : d.setter.body with
  | none =>
    exact .bind (ends_defaultSetterBody c hQ (by rwa [hset] at hf) p _ _) fun body t₁ h₁ =>
      hout body t₁ h₁ fun b hb => by rw [hset] at hb; cases hb
  | some body =>
    refine .bind (ends_relocate (Q := Q) c (by rwa [hset] at hf) (fun hc => hbody hc body hset) p _) ?_
    rintro _ t₁ ⟨h₁, rfl, hmoved⟩
    exact hout _ t₁ h₁ fun b hb => by rw [hset] at hb; cases hb; exact ⟨rfl, hmoved⟩

theorem ends_addGetter (hQ : Allows Q) (hf : Forest t (d.getter.body.toList ++ rest)) (hty : CopiesTo Q t d.ty)
    (hbody : c → ∀ body ∈ d.getter.body, IsTall t body) (p : Pos) :
    Ends (addGetter o d p) t (fun r t' => p.line ≤ r.2 ∧ Laid c r.2 Q rest t [r.1] t' ∧
      IsMethodOf d.getter (getterName d.name.name) p r.2 t r.1 t') := by
  have hout : ∀ body t₁, IsBody c Q rest t p body t₁ →
      (∀ b ∈ d.getter.body, b = body ∧ BodyMoved b p d.getter.loc t t₁) → Ends (do
        let line ← stopLine body p
        let result ← copyErased d.ty
        let method ← addMethod p body
          { modifiers := memberModifiers d d.getter.visibility, result, name := .synthetic (getterName d.name.name),
            body := some body }
        return (method, line) : Edit LowerError (NodeId × Nat)) t₁ (fun r t' => p.line ≤ r.2 ∧
          Laid c r.2 Q rest t [r.1] t' ∧ IsMethodOf d.getter (getterName d.name.name) p r.2 t r.1 t') := by
    intro body t₁ h₁ htaken
    obtain ⟨node, hnode⟩ := contains_iff.1 (h₁.forest.contained body List.mem_cons_self)
    refine .bind (ends_stopLine hnode p) ?_
    rintro _ _ ⟨rfl, rfl⟩
    refine .bind (ends_copyErased c (stopLineOf node p) h₁.forest (hty.built h₁.toBuilt)) fun result t₂ h₂ => ?_
    have hnode₂ : t₂.get? body = some node := (h₂.get_eq body List.mem_cons_self body .refl).trans hnode
    refine .bind (ends_addMethod c hQ [result, body] ((h₁.laid c hnode).trans [] h₂) hnode₂ (.refl _) rfl rfl
      fun b hb => ⟨(htaken b hb).1, (htaken b hb).2.keep fun x hx => unlinked?_congr ?_⟩) fun method t₃ h₃ => ?_
    · rw [(htaken b hb).1] at hx
      exact h₂.get_eq body List.mem_cons_self x hx
    exact .pure ⟨stopLineOf_ge node p, h₃⟩
  unfold addGetter
  cases hget : d.getter.body with
  | none =>
    exact .bind (ends_defaultGetterBody c hQ (by rwa [hget] at hf) p _) fun body t₁ h₁ =>
      hout body t₁ h₁ fun b hb => by rw [hget] at hb; cases hb
  | some body =>
    refine .bind (ends_relocate (Q := Q) c (by rwa [hget] at hf) (fun hc => hbody hc body hget) p _) ?_
    rintro _ t₁ ⟨h₁, rfl, hmoved⟩
    exact hout _ t₁ h₁ fun b hb => by rw [hget] at hb; cases hb; exact ⟨rfl, hmoved⟩

/-! ## All four -/

/-- What goes with a property: its type and its annotations. -/
def doomed (d : PropertyDecl) : List NodeId := d.ty :: d.modifiers.annotations

/-- **Some roots went and others came.** Under the roots in `rest` nothing has changed. -/
structure Replaced (Q : Kind → Prop) (gone rest : List NodeId) (t : Tree) (new : List NodeId) (t' : Tree) : Prop where
  forest : Forest t' (new ++ rest)
  size_le : t.cells.size ≤ t'.cells.size
  root_eq : t'.root = t.root
  get_eq : ∀ r ∈ rest, ∀ x, t.Reaches r x → t'.get? x = t.get? x
  bare_eq : ∀ x, x.index < t.cells.size → (∀ g ∈ gone, ¬ t.Reaches g x) → t'.bare? x = t.bare? x
  removed : ∀ x, (∃ g ∈ gone, t.Reaches g x) → t'.get? x = none
  kinds : ∀ x k, t.cells.size ≤ x.index → t'.bare? x = some k → Q k

/-- Removing what was there before leaves what is new. -/
theorem bare?_removes_of_new {gone : List NodeId} {x : NodeId} (h : Built Q (gone ++ rest) t new t')
    (hx : t.cells.size ≤ x.index) : (gone.foldl Tree.remove t').bare? x = t'.bare? x := by
  obtain ⟨-, -, hstay⟩ := h.forest_gone.removes gone
  unfold bare? kind?
  rw [hstay x fun g hg hgx => ?_]
  have hgc := h.contains_rest (List.mem_append_left _ hg)
  obtain ⟨used, hf⟩ := h.source
  have := index_lt_of_contains (hf.contains_of_reaches hgc ((h.reaches_iff hgc).1 hgx))
  omega

theorem Replaced.of_built {gone : List NodeId} (h : Built Q (gone ++ rest) t new t') :
    Replaced Q gone rest t new (gone.foldl Tree.remove t') := by
  obtain ⟨hforest, hgone, hstay⟩ := h.forest_gone.removes gone
  have hreach : ∀ {g}, g ∈ gone → ∀ {x}, t'.Reaches g x ↔ t.Reaches g x := fun {_} hg {_} =>
    h.reaches_iff (h.contains_rest (List.mem_append_left _ hg))
  have hbare : ∀ {x}, (∀ g ∈ gone, ¬ t'.Reaches g x) →
      (gone.foldl Tree.remove t').bare? x = t'.bare? x := fun {x} hx => by
    unfold bare? kind?
    rw [hstay x hx]
  refine ⟨hforest, ?_, ?_, fun r hr x hx => ?_, fun x hx hxg => ?_, fun x hx => ?_, fun x k hx hk => ?_⟩
  · rw [size_removes]
    exact h.size_le
  · rw [root_removes, h.root_eq]
  · have hr' := List.mem_append_right gone hr
    have hrx : t'.Reaches r x := (h.reaches_iff (h.contains_rest hr')).2 hx
    rw [hstay x fun g hg => h.not_reaches_gone (List.mem_append_right _ hr) hrx hg, h.get_eq r hr' x hx]
  · rw [hbare (fun g hg hgx => hxg g hg ((hreach hg).1 hgx)), h.bare_eq x hx]
  · obtain ⟨g, hg, hgx⟩ := hx
    exact hgone x ⟨g, hg, (hreach hg).2 hgx⟩
  · by_cases hxg : ∃ g ∈ gone, t'.Reaches g x
    · unfold bare? kind? at hk
      rw [hgone x hxg] at hk
      cases hk
    · rw [hbare (fun g hg hgx => hxg ⟨g, hg, hgx⟩)] at hk
      exact h.kinds x k hx hk

/-- The children of a property, in the order in which lowering comes to them. -/
theorem children_property_perm (d : PropertyDecl) : (Kind.property d).children.Perm
    ((d.initial.toList ++ (d.setter.body.toList ++ d.getter.body.toList)) ++ doomed d) := by
  rw [List.perm_iff_count]
  intro x
  simp only [Kind.children, Kind.slots, doomed, List.flatMap_append, List.count_append, List.count_cons]
  cases d.initial <;> cases d.getter.body <;> cases d.setter.body <;>
    simp [Slot.ofOption, Slot.children, List.count_append, List.count_cons] <;> omega

theorem IsTall.built {body : NodeId} (h : IsTall t body) (hb : Built Q rest t new t') (hbody : body ∈ rest) :
    IsTall t' body := by
  obtain ⟨node, stop, hnode, hstop, habove⟩ := h
  exact ⟨node, stop, (hb.get_eq body hbody body .refl).trans hnode, hstop, habove.built hb hbody⟩

/-- **A property becomes four members.** -/
theorem ends_lowerProperty (hQ : Allows Q) (hf : Forest t ((Kind.property d).children ++ rest))
    (hty : CopiesTo Q t d.ty) (hset : c → ∀ body ∈ d.setter.body, IsTall t body)
    (hget : c → ∀ body ∈ d.getter.body, IsTall t body) (line col : Nat) :
    Ends (lowerProperty o d line col) t (fun r t' => Replaced Q (doomed d) rest t r.1.toList t' ∧ line < r.2 ∧
      (c → ∀ m ∈ r.1.toList, Above (r.2 - 1) t' m) ∧ Made o d.name.name t.cells.size t' r.1 ∧
      Inherits d t.cells.size t' r.1 ∧ Arranged d line col r.2 t r.1 t') := by
  have h₀ : Built Q (doomed d ++ rest) t (d.initial.toList ++ (d.setter.body.toList ++ d.getter.body.toList)) t := by
    refine .refl ?_
    rw [← List.append_assoc]
    exact hf.perm ((children_property_perm d).append_right rest)
  unfold lowerProperty
  refine .bind (ends_backingField c hQ h₀.forest_assoc hty _) fun backing t₁ ⟨h₁, hbacking, hinitial, hbackingLoc⟩ => ?_
  have hb₁ := h₀.trans _ h₁.toBuilt
  refine .bind (ends_observerField c hQ hb₁.forest (hty.built hb₁) _)
    fun observer t₂ ⟨h₂, hobserver, hobserverLoc⟩ => ?_
  have hb₂ := hb₁.trans [] h₂.toBuilt
  have hb₂ : Built Q (doomed d ++ rest) t (d.setter.body.toList ++ (d.getter.body.toList ++ [observer, backing])) t₂ :=
    hb₂.perm (by
      rw [← List.append_assoc]
      exact (List.perm_append_comm : ([observer, backing] ++ _).Perm _))
  have ha₁ : c → ∀ m ∈ [observer, backing], Above (line + 1) t₂ m :=
    h₂.above_cons h₁.above (by simp) (Nat.le_succ line)
  -- the fields leave the bodies alone
  have hsame₂ : ∀ body, body ∈ d.setter.body ∨ body ∈ d.getter.body → ∀ x, t.Reaches body x → t₂.get? x = t.get? x :=
    fun body hbody x hx => by
      have hmem : body ∈ d.setter.body.toList ++ d.getter.body.toList :=
        List.mem_append.2 (hbody.imp Option.mem_toList.2 Option.mem_toList.2)
      have hmem₁ : body ∈ d.setter.body.toList ++ d.getter.body.toList ++ (doomed d ++ rest) :=
        List.mem_append_left _ hmem
      rw [h₂.get_eq body (List.mem_append_left _ (List.mem_cons_of_mem _ hmem)) x
        ((h₁.reaches_iff (h₁.contains_rest hmem₁)).2 hx), h₁.get_eq body hmem₁ x hx]
  refine .bind (ends_addSetter c hQ hb₂.forest_assoc (hty.built hb₂) (fun hc body hbody => ?_) _)
    fun setter t₃ ⟨hs, h₃, hsetter⟩ => ?_
  · have hmem : body ∈ d.setter.body.toList := Option.mem_toList.2 hbody
    exact ((hset hc body hbody).built h₁.toBuilt (by simp [hmem])).built h₂.toBuilt (by simp [hmem])
  have hb₃ := hb₂.trans _ h₃.toBuilt
  have hb₃ : Built Q (doomed d ++ rest) t (d.getter.body.toList ++ [setter.1, observer, backing]) t₃ :=
    hb₃.perm (List.perm_middle.symm : (setter.1 :: (d.getter.body.toList ++ [observer, backing])).Perm _)
  have ha₃ : c → ∀ m ∈ [setter.1, observer, backing], Above setter.2 t₃ m :=
    h₃.above_cons ha₁ (by simp) (by simp at hs; omega)
  have hsame₃ : ∀ body ∈ d.getter.body, ∀ x, t.Reaches body x → t₃.get? x = t.get? x := fun body hbody x hx => by
    have hmem : body ∈ d.getter.body.toList := Option.mem_toList.2 hbody
    have hx₂ : t₂.Reaches body x := hx.transfer fun y hy => children_congr (by
      unfold bare? kind?
      rw [hsame₂ body (.inr hbody) y hy])
    rw [h₃.get_eq body (by simp [hmem]) x hx₂, hsame₂ body (.inr hbody) x hx]
  refine .bind (ends_addGetter c hQ hb₃.forest_assoc (hty.built hb₃) (fun hc body hbody => ?_) _)
    fun getter t₄ ⟨hg, h₄, hgetter⟩ => ?_
  · have hmem : body ∈ d.getter.body.toList := Option.mem_toList.2 hbody
    exact (((hget hc body hbody).built h₁.toBuilt (by simp [hmem])).built h₂.toBuilt (by simp [hmem])).built h₃.toBuilt
      (by simp [hmem])
  have hb₄ := hb₃.trans _ h₄.toBuilt
  have hb₄ : Built Q (doomed d ++ rest) t [backing, observer, setter.1, getter.1] t₄ :=
    hb₄.perm (List.reverse_perm [backing, observer, setter.1, getter.1])
  have ha₄ : c → ∀ m ∈ [getter.1, setter.1, observer, backing], Above getter.2 t₄ m :=
    h₄.above_cons ha₃ (by simp) (by simp at hg; omega)
  have hkeep₁ : ∀ x, t.cells.size ≤ x.index → t₁.contains x = true → t₄.bare? x = t₁.bare? x := fun x _ hx => by
    have hx₂ := h₂.contains hx
    rw [h₄.keep (h₃.contains hx₂), h₃.keep hx₂, h₂.keep hx]
  have hmade : Made o d.name.name t.cells.size t₄ ⟨backing, observer, setter.1, getter.1⟩ :=
    { backing := hbacking.keep hkeep₁ (Nat.le_refl _)
      observer := hobserver.keep (fun x _ hx => by rw [h₄.keep (h₃.contains hx), h₃.keep hx]) h₁.size_le
      setter := hsetter.made.keep (fun x _ hx => h₄.keep hx) hb₂.size_le
      getter := hgetter.made.keep (fun x _ _ => rfl) hb₃.size_le }
  have hinherits : Inherits d t.cells.size t₄ ⟨backing, observer, setter.1, getter.1⟩ :=
    { initial := hinitial.keep hkeep₁ (Nat.le_refl _)
      setter := fun body hbody => (hsetter.hasBody body hbody).keep (fun x _ hx => h₄.keep hx) hb₂.size_le
      getter := fun body hbody => (hgetter.hasBody body hbody).keep (fun x _ _ => rfl) hb₃.size_le }
  have harranged : Arranged d line col (getter.2 + 1) t ⟨backing, observer, setter.1, getter.1⟩ t₄ :=
    { backing := by
        rw [h₄.loc?_rest (by simp), h₃.loc?_rest (by simp), h₂.loc?_rest (by simp), hbackingLoc]
      observer := by rw [h₄.loc?_rest (by simp), h₃.loc?_rest (by simp), hobserverLoc]
      accessors := ⟨setter.2,
        (hsetter.place.keep fun x hx => unlinked?_congr (h₄.get_eq setter.1 (by simp) x hx)).source
          fun body hbody => hsame₂ body (.inl hbody),
        hgetter.place.source hsame₃⟩ }
  have hgone : ∀ x, t.cells.size ≤ x.index → t₄.contains x = true →
      ((doomed d).foldl Tree.remove t₄).bare? x = t₄.bare? x := fun x hx _ => bare?_removes_of_new hb₄ hx
  refine .bind_modify (.pure ⟨.of_built hb₄, by simp at hs hg; omega, fun hc m hm => ?_,
    hmade.keep hgone (Nat.le_refl _), hinherits.keep hgone (Nat.le_refl _),
    harranged.keep fun m hm x hx => unlinked?_congr (hb₄.get?_removes hm hx)⟩)
  have hm' : m ∈ [getter.1, setter.1, observer, backing] :=
    (List.reverse_perm [getter.1, setter.1, observer, backing]).mem_iff.1 hm
  exact (ha₄ hc m hm').removes hb₄ hm

end UniformAccess.Lowering
