import UniformAccess.Proofs.Resolution.Work
/-!
# Places that are written to

The target of an assignment and the operand of `++` and `--` are places that are written to, and a call is none. An
access that is the target of an assignment does not become a call in this place, because the whole assignment is
replaced. The operand of `++` is read like any other, though, and an assignment may itself stand in such a place. A
complaint turns a place into a call in these two cases and in no other (`Resolves.assignable_iff`), and if they do not
occur, no number of complaints does (`Secure.resolves`).
-/
namespace UniformAccess

/-- Whether the operator changes its operand. -/
def UnaryOp.isStep : UnaryOp → Bool
  | preInc | preDec | postInc | postDec => true
  | _ => false

namespace Kind

/-- What a node of this kind assigns to. -/
def target? : Kind → Option NodeId
  | assign target _ _ => some target
  | _ => none

/-- The place that a node of this kind writes to. -/
def place? : Kind → Option NodeId
  | assign target _ _ => some target
  | unary op expr => if op.isStep then some expr else none
  | _ => none

def isCall : Kind → Bool
  | call .. => true
  | _ => false

theorem target?_bare (k : Kind) : k.bare.target? = k.target? := by
  cases k <;> rfl

theorem place?_bare (k : Kind) : k.bare.place? = k.place? := by
  cases k <;> rfl

theorem isCall_bare (k : Kind) : k.bare.isCall = k.isCall := by
  cases k <;> rfl

theorem isCall_withSlots (k : Kind) (s : List Slot) : (k.withSlots s).isCall = k.isCall := by
  cases k <;> rfl

theorem mem_children_of_place? {k : Kind} {c : NodeId} (h : k.place? = some c) : c ∈ k.children := by
  cases k with
  | assign target op value =>
    cases h
    exact List.mem_cons_self
  | unary op expr =>
    have h : (if op.isStep then some expr else none) = some c := h
    split at h
    · cases h
      exact List.mem_cons_self
    · cases h
  | _ => cases h

theorem place?_of_target? {k : Kind} {c : NodeId} (h : k.target? = some c) : k.place? = some c := by
  cases k with
  | assign => exact h
  | _ => cases h

end Kind

namespace Tree

variable {t t' : Tree} {id scope top old new x y c : NodeId} {off found : List NodeId} {name : String} {loc : Loc}

/-- What the node assigns to. -/
def target? (t : Tree) (x : NodeId) : Option NodeId := (t.kind? x).bind Kind.target?

/-- The place that the node writes to: the target of an assignment, or the operand of `++` or `--`. -/
def place? (t : Tree) (x : NodeId) : Option NodeId := (t.kind? x).bind Kind.place?

def isCall (t : Tree) (x : NodeId) : Bool := (t.kind? x).any Kind.isCall

/-- **No call is assigned to, and none is the operand of `++` or `--`.** -/
def Assignable (t : Tree) : Prop := ∀ x c, t.place? x = some c → t.isCall c = false

theorem mem_children_of_place? (h : t.place? x = some c) : c ∈ t.children x := by
  obtain ⟨k, hk, hc⟩ := Option.bind_eq_some_iff.1 h
  rw [children_of_kind? hk]
  exact Kind.mem_children_of_place? hc

theorem place?_of_target? (h : t.target? x = some c) : t.place? x = some c := by
  obtain ⟨k, hk, hc⟩ := Option.bind_eq_some_iff.1 h
  exact Option.bind_eq_some_iff.2 ⟨k, hk, Kind.place?_of_target? hc⟩

theorem target?_eq_some_iff : t.target? x = some c ↔ ∃ op value, t.kind? x = some (.assign c op value) := by
  constructor
  · intro h
    obtain ⟨k, hk, hc⟩ := Option.bind_eq_some_iff.1 h
    cases k with
    | assign target op value =>
      cases hc
      exact ⟨op, value, hk⟩
    | _ => cases hc
  · rintro ⟨op, value, hk⟩
    exact Option.bind_eq_some_iff.2 ⟨_, hk, rfl⟩

theorem mem_ids_of_place? (h : t.place? x = some c) : x ∈ t.ids :=
  mem_ids_of_contains (contains_of_mem_children (mem_children_of_place? h))

instance (t : Tree) : Decidable t.Assignable :=
  decidable_of_iff (∀ x ∈ t.ids, ∀ c ∈ t.place? x, t.isCall c = false)
    ⟨fun h x c hc => h x (mem_ids_of_place? hc) c hc, fun h x _ c hc => h x c hc⟩

/-! ## Twins write to twins -/

theorem target?_of_bare? {k : Kind} (h : t.bare? x = some k) : t.target? x = k.target? := by
  obtain ⟨k', hk', rfl⟩ := exists_kind?_of_bare? h
  unfold target?
  rw [hk', Kind.target?_bare]
  rfl

theorem place?_of_bare? {k : Kind} (h : t.bare? x = some k) : t.place? x = k.place? := by
  obtain ⟨k', hk', rfl⟩ := exists_kind?_of_bare? h
  unfold place?
  rw [hk', Kind.place?_bare]
  rfl

theorem isCall_of_bare? {k : Kind} (h : t.bare? x = some k) : t.isCall x = k.isCall := by
  obtain ⟨k', hk', rfl⟩ := exists_kind?_of_bare? h
  unfold isCall
  rw [hk', Option.any_some, Kind.isCall_bare]

namespace Twin

theorem isCall_eq (h : Twin t x y) : t.isCall y = t.isCall x := by
  cases h with
  | intro hx hy => rw [isCall_of_bare? hx, isCall_of_bare? hy, Kind.isCall_withSlots]

theorem member?_eq (h : Twin t x y) : t.member? y = t.member? x := by
  cases h with
  | intro hx hy => rw [member?_of_bare? hx, member?_of_bare? hy, Kind.member?_withSlots]

/-- Twins write to twins, and they assign or do not. -/
theorem place?_eq_some (h : Twin t x y) {c' : NodeId} (hc' : t.place? y = some c') :
    ∃ c, t.place? x = some c ∧ Twin t c c' ∧ (t.target? x).isSome = (t.target? y).isSome := by
  cases h with
  | @intro x y k slots hx hy hshape hlen hchildren =>
    rw [place?_of_bare? hx, target?_of_bare? hx, target?_of_bare? hy]
    rw [place?_of_bare? hy] at hc'
    cases k with
    | assign target op value =>
      obtain ⟨target', value', rfl⟩ : ∃ target' value', slots = [.one target', .one value'] := by
        cases hshape with
        | one h =>
          obtain ⟨value', rfl⟩ := Slot.SameShape.exists_one h
          exact ⟨_, value', rfl⟩
      cases hc'
      exact ⟨target, rfl, hchildren (target, _) List.mem_cons_self, rfl⟩
    | unary op expr =>
      obtain ⟨expr', rfl⟩ := Slot.SameShape.exists_one hshape
      have hc' : (if op.isStep then some expr' else none) = some c' := hc'
      split at hc'
      · rename_i hstep
        cases hc'
        exact ⟨expr, if_pos hstep, hchildren (expr, _) List.mem_cons_self, rfl⟩
      · cases hc'
    | _ => cases hc'

theorem target?_eq_some (h : Twin t x y) {c' : NodeId} (hc' : t.target? y = some c') :
    ∃ c, t.target? x = some c ∧ Twin t c c' := by
  obtain ⟨c, hc, htwin, hsome⟩ := h.place?_eq_some (place?_of_target? hc')
  rw [hc', Option.isSome_some, Option.isSome_iff_exists] at hsome
  obtain ⟨c₀, hc₀⟩ := hsome
  obtain rfl : c₀ = c := Option.some.inj ((place?_of_target? hc₀).symm.trans hc)
  exact ⟨c₀, hc₀, htwin⟩

end Twin

/-! ## The nodes that stay -/

theorem target?_replaceFirst (k : Kind) (old new : NodeId) :
    (k.withSlots (Slot.replaceFirst old new k.slots)).target? = k.target?.map (standIn old new) := by
  cases k with
  | assign target op value =>
    rw [show (Kind.assign target op value).slots = [.one target, .one value] from rfl, replaceFirst_one]
    show _ = some (standIn old new target)
    unfold standIn
    split
    · rfl
    · rw [replaceFirst_one]
      split <;> rfl
  | _ => rfl

theorem place?_replaceFirst (k : Kind) (old new : NodeId) :
    (k.withSlots (Slot.replaceFirst old new k.slots)).place? = k.place?.map (standIn old new) := by
  cases k with
  | assign target op value => exact target?_replaceFirst (.assign target op value) old new
  | unary op expr =>
    rw [show (Kind.unary op expr).slots = [.one expr] from rfl, replaceFirst_one]
    show _ = (if op.isStep then some expr else none).map (standIn old new)
    unfold standIn
    split
    · show (if op.isStep then some new else none) = _
      split <;> simp [*]
    · show (if op.isStep then some expr else none) = _
      split <;> simp [*]
  | _ => rfl

namespace Placed

variable (hp : t.Proper) (h : Placed t t' top old new off)
include h

theorem isCall_eq (hx : x.index < t.cells.size) (hxo : x ∉ off) : t'.isCall x = t.isCall x := by
  unfold isCall
  by_cases hxt : x = top
  · obtain ⟨k, hk⟩ := exists_kind? (contains_of_mem_children h.held)
    rw [hxt, h.kind_top k hk, hk]
    exact Kind.isCall_withSlots k _
  · rw [h.kind_eq x hx hxt hxo]

include hp

theorem place?_eq (hx : x.index < t.cells.size) (hxo : x ∉ off) : t'.place? x = (t.place? x).map (standIn old new) :=
  h.bind_kind?_eq hp Kind.mem_children_of_place? (fun k => place?_replaceFirst k old new) hx hxo

theorem target?_eq (hx : x.index < t.cells.size) (hxo : x ∉ off) :
    t'.target? x = (t.target? x).map (standIn old new) :=
  h.bind_kind?_eq hp (fun hc => Kind.mem_children_of_place? (Kind.place?_of_target? hc))
    (fun k => target?_replaceFirst k old new) hx hxo

end Placed

/-- The kinds of the nodes that an access to a property is rewritten to. -/
inductive Accessing (name : String) : Kind → Prop
  | getter {scope : Option NodeId} {args : List NodeId} :
      Accessing name (.call scope (.synthetic (getterName name)) args)
  | setter {scope : Option NodeId} {args : List NodeId} :
      Accessing name (.call scope (.synthetic (setterName name)) args)
  | combined {left right : NodeId} {op : BinaryOp} : Accessing name (.binary left op right)
  | paren {inner : NodeId} : Accessing name (.paren inner)

/-- **A new node is of one of these kinds, or is in the copy of the scope.** -/
theorem Rewritten.accessing_or_copied {member : Ident} (hp : t.Proper) (hp' : t'.Proper)
    (hk : t.kind? id = some (.fieldAccess scope member)) (h : Rewritten t t' id scope name loc found)
    (hx : t'.contains x = true) (hnew : t.cells.size ≤ x.index) :
    (∃ k, t'.kind? x = some k ∧ Accessing name k) ∨ ∃ copy, Copied t t' scope found copy ∧ t'.Reaches copy x := by
  have hscope : scope.index < t.cells.size := by
    refine index_lt_of_contains (hp.contained id scope ?_)
    rw [children_of_kind? hk]
    exact List.mem_cons_self
  cases h with
  | @read top new hread hplaced hcall hloc hfound =>
    have hcases := hplaced.index_lt_or hp (N := (· = new)) hp' rfl (fun p hpn c hc => by
      rw [hpn, children_of_kind? hcall] at hc
      exact .inl (List.mem_singleton.1 hc ▸ hscope)) hx
    rw [hcases.resolve_left (Nat.not_lt.2 hnew)]
    exact .inl ⟨_, hcall, .getter⟩
  | @write top write new value arg op hwrite hplaced hcall hloc hhanded =>
    have hvalue : value.index < t.cells.size := by
      refine index_lt_of_contains (hp.contained write value ?_)
      rw [children_of_kind? hwrite]
      exact List.mem_cons_of_mem _ List.mem_cons_self
    cases hhanded with
    | plain hop =>
      have hcases := hplaced.index_lt_or hp (N := (· = new)) hp' rfl (fun p hpn c hc => by
        rw [hpn, children_of_kind? hcall] at hc
        rcases List.mem_cons.1 hc with rfl | hc
        · exact .inl hscope
        · exact .inl (List.mem_singleton.1 hc ▸ hvalue)) hx
      rw [hcases.resolve_left (Nat.not_lt.2 hnew)]
      exact .inl ⟨_, hcall, .setter⟩
    | @combined _ o k current copy right _ hop hcopy hfresh harg hvk hright =>
      have hcases := hplaced.index_lt_or hp hp'
        (N := fun y => y = new ∨ y = arg ∨ y = current ∨ (y = right ∧ t'.kind? right = some (.paren value)) ∨
          t'.Reaches copy y) (.inl rfl) (fun p hN c hc => by
          rcases hN with rfl | rfl | rfl | ⟨rfl, hparen⟩ | hreach
          · rw [children_of_kind? hcall] at hc
            rcases List.mem_cons.1 hc with rfl | hc
            · exact .inl hscope
            · exact .inr (.inr (.inl (List.mem_singleton.1 hc)))
          · rw [children_of_kind? harg] at hc
            rcases List.mem_cons.1 hc with rfl | hc
            · exact .inr (.inr (.inr (.inl rfl)))
            · rw [List.mem_singleton.1 hc]
              split at hright
              · exact .inr (.inr (.inr (.inr (.inl ⟨rfl, hright.2⟩))))
              · exact .inl (hright ▸ hvalue)
          · rw [children_of_kind? hcopy.call] at hc
            rw [List.mem_singleton.1 hc]
            exact .inr (.inr (.inr (.inr (.inr .refl))))
          · rw [children_of_kind? hparen] at hc
            exact .inl (List.mem_singleton.1 hc ▸ hvalue)
          · exact .inr (.inr (.inr (.inr (.inr (hreach.tail hc)))))) hx
      rcases hcases.resolve_left (Nat.not_lt.2 hnew) with rfl | rfl | rfl | ⟨rfl, hparen⟩ | hreach
      · exact .inl ⟨_, hcall, .setter⟩
      · exact .inl ⟨_, harg, .combined⟩
      · exact .inl ⟨_, hcopy.call, .getter⟩
      · exact .inl ⟨_, hparen, .paren⟩
      · exact .inr ⟨copy, hcopy.toCopied, hreach⟩

/-- A new node writes to nothing, or is in the copy of the scope. -/
theorem Rewritten.place?_or_copied {member : Ident} (hp : t.Proper) (hp' : t'.Proper)
    (hk : t.kind? id = some (.fieldAccess scope member)) (h : Rewritten t t' id scope name loc found)
    (hx : t'.contains x = true) (hnew : t.cells.size ≤ x.index) :
    t'.place? x = none ∨ ∃ copy, Copied t t' scope found copy ∧ t'.Reaches copy x := by
  refine (h.accessing_or_copied hp hp' hk hx hnew).imp_left fun ⟨k, hkx, hacc⟩ => ?_
  unfold place?
  rw [hkx]
  cases hacc <;> rfl

/-! ## The node that is replaced -/

/-- **The node that a call takes the place of**: the assignment to an access if there is one, else the access. -/
def site (t : Tree) (a : NodeId) : NodeId :=
  match t.parent? a with
  | some p => if t.target? p = some a then p else a
  | none => a

theorem site_of_target? (hp : t.Proper) (h : t.target? x = some id) : t.site id = x := by
  unfold site
  rw [hp.linked x id (mem_children_of_place? (place?_of_target? h))]
  exact if_pos h

theorem site_of_held (hp : t.Proper) (hheld : id ∈ t.children x) (h : t.target? x ≠ some id) : t.site id = id := by
  unfold site
  rw [hp.linked x id hheld]
  exact if_neg h

/-- The site of an access is the access or assigns to it. -/
theorem site_cases (t : Tree) (id : NodeId) : t.site id = id ∨ t.target? (t.site id) = some id := by
  unfold site
  split
  · split
    · rename_i h
      exact .inr h
    · exact .inl rfl
  · exact .inl rfl

/-- The site of an access is the access or above it. -/
theorem reaches_site (t : Tree) (id : NodeId) : t.Reaches (t.site id) id := by
  rcases t.site_cases id with hsite | htarget
  · rw [hsite]
    exact .refl
  · exact .of_child (mem_children_of_place? (place?_of_target? htarget))

namespace Rewritten

variable (hp : t.Proper) (h : Rewritten t t' id scope name loc found)
include hp h

/-- **A call takes the place of the site.** -/
theorem exists_placed_site : ∃ top new off, Placed t t' top (t.site id) new off ∧ t'.isCall new = true ∧
    ∀ x, x ∈ off ↔ x = t.site id ∨ x = id := by
  have hcall' : ∀ {new m args}, t'.kind? new = some (.call (some scope) m args) → t'.isCall new = true := fun hk => by
    unfold isCall
    rw [hk]
    rfl
  cases h with
  | @read top new hread hplaced hcall =>
    have hsite : t.site id = id := by
      refine site_of_held hp hplaced.held fun htarget => ?_
      obtain ⟨op, value, hk⟩ := target?_eq_some_iff.1 htarget
      exact hread op value hk
    refine ⟨top, new, [id], hsite.symm ▸ hplaced, hcall' hcall, fun x => ?_⟩
    rw [hsite, List.mem_singleton, or_self_iff]
  | @write top write new value arg op hwrite hplaced hcall =>
    have hsite : t.site id = write := site_of_target? hp (target?_eq_some_iff.2 ⟨op, value, hwrite⟩)
    refine ⟨top, new, [write, id], hsite.symm ▸ hplaced, hcall' hcall, fun x => ?_⟩
    rw [hsite, List.mem_cons, List.mem_singleton]

/-- **What lies below the scope is not touched.** -/
theorem kind?_of_reaches_scope {member : Ident} (hk : t.kind? id = some (.fieldAccess scope member))
    (hx : t.Reaches scope x) : x ∉ [t.site id, id] ∧ t'.kind? x = t.kind? x := by
  obtain ⟨top, new, off, hplaced, -, hoff⟩ := h.exists_placed_site hp
  have hscope : scope ∈ t.children id := by
    rw [children_of_kind? hk]
    exact List.mem_cons_self
  have hsite := t.reaches_site id
  have hne : ∀ {y}, t.Reaches y id → x ≠ y := fun hy hxy =>
    hp.forest.acyclic id (Relation.TransGen.head' hscope (hx.trans (hxy ▸ hy)))
  have hxo : x ∉ off := fun hmem => by
    rcases (hoff x).1 hmem with hxs | hxid
    · exact hne hsite hxs
    · exact hne .refl hxid
  refine ⟨?_, ?_⟩
  · simpa [hoff] using hxo
  · have hxc := hp.forest.contains_of_reaches (hp.contained id scope hscope) hx
    exact hplaced.kind_eq x (index_lt_of_contains hxc) (hne (Relation.ReflTransGen.head hplaced.held hsite)) hxo

theorem reaches_scope_iff {member : Ident} (hk : t.kind? id = some (.fieldAccess scope member)) :
    t'.Reaches scope x ↔ t.Reaches scope x := by
  refine reaches_iff_of_children fun y hy => children_congr ?_
  unfold bare?
  rw [(h.kind?_of_reaches_scope hp hk hy).2]

end Rewritten

end Tree

namespace Resolution

open UniformAccess.Tree

variable {s s' : Tracked} {layout : Option Layout} {p : Pos} {id scope x c a : NodeId} {node : Node} {member : Ident}
  {found : List NodeId}

/-- **An access that is looked after, or will be if it is copied.** -/
def Minds (s : Tracked) (a : NodeId) : Prop := a ∈ s.resolver.pending ∨ s.resolver.tracks s.tree a = true

/-- **No complaint turns a place into a call**: none is one yet, and neither `++` and `--` nor an assignment writes to
something that a call may take the place of. -/
structure Secure (s : Tracked) : Prop where
  index_lt : ∀ a ∈ s.resolver.pending, a.index < s.tree.cells.size
  assignable : s.tree.Assignable
  operand : ∀ x c, s.tree.place? x = some c → s.tree.target? x = none → ¬ Minds s c
  target : ∀ x c a, s.tree.place? x = some c → s.tree.target? c = some a → ¬ Minds s a

instance (s : Tracked) (a : NodeId) : Decidable (Minds s a) := inferInstanceAs (Decidable (_ ∨ _))

instance (s : Tracked) : Decidable (Secure s) :=
  decidable_of_iff ((∀ a ∈ s.resolver.pending, a.index < s.tree.cells.size) ∧ s.tree.Assignable ∧
      ∀ x ∈ s.tree.ids, ∀ c ∈ s.tree.place? x,
        (s.tree.target? x = none → ¬ Minds s c) ∧ ∀ a ∈ s.tree.target? c, ¬ Minds s a)
    ⟨fun h => ⟨h.1, h.2.1, fun x c hc => (h.2.2 x (mem_ids_of_place? hc) c hc).1,
      fun x c a hc ha => (h.2.2 x (mem_ids_of_place? hc) c hc).2 a ha⟩,
      fun h => ⟨h.index_lt, h.assignable, fun x _ c hc => ⟨h.operand x c hc, fun a ha => h.target x c a hc ha⟩⟩⟩

/-- No access that is looked after has a site in such a place. -/
theorem Secure.place?_ne (hp : s.tree.Proper) (h : Secure s) (ha : Minds s a) :
    s.tree.place? x ≠ some (s.tree.site a) := by
  intro hx
  rcases s.tree.site_cases a with hsite | htarget
  · rw [hsite] at hx
    refine h.operand x a hx ?_ ha
    -- an assignment to the access would be its site
    cases htx : s.tree.target? x with
    | none => rfl
    | some c =>
      obtain rfl : c = a := Option.some.inj ((place?_of_target? htx).symm.trans hx)
      have hxc : x = c := (site_of_target? hp htx).symm.trans hsite
      rw [hxc] at hx
      exact absurd (Relation.TransGen.single (mem_children_of_place? hx)) (hp.forest.acyclic c)
  · exact h.target x _ a hx htarget ha

namespace Resolves

variable (hp : s.tree.Proper) (h : Resolves layout p s s' id node scope member found)
include hp h

/-- What a node that stays writes to: the call, or what it wrote to before. -/
theorem place?_old (hx : x.index < s.tree.cells.size) (hc : s'.tree.place? x = some c)
    (hfree : s.tree.place? x ≠ some (s.tree.site id)) :
    s.tree.place? x = some c ∧ s.tree.contains c = true ∧ c ≠ s.tree.site id ∧ c ≠ id ∧
      s'.tree.isCall c = s.tree.isCall c ∧ (s.tree.target? x).isSome = (s'.tree.target? x).isSome := by
  obtain ⟨top, new, off, hplaced, -, hoff⟩ := h.rewritten.exists_placed_site hp
  have hxo : x ∉ off :=
    (hplaced.contains_of_index_lt hx (contains_of_mem_children (mem_children_of_place? hc))).1
  rw [hplaced.place?_eq hp hx hxo] at hc
  obtain ⟨c₀, hc₀, rfl⟩ := Option.map_eq_some_iff.1 hc
  have hsite : c₀ ≠ s.tree.site id := fun hco => hfree (hco ▸ hc₀)
  rw [standIn_of_ne hsite]
  have hheld := mem_children_of_place? hc₀
  have hcid : c₀ ≠ id := fun hcid => by
    -- the node that holds the access is its site, or else the access is
    rcases s.tree.site_cases id with hs | htarget
    · exact hsite (hcid.trans hs.symm)
    · have hparent := hp.linked _ _ (mem_children_of_place? (place?_of_target? htarget))
      have hxs : x = s.tree.site id := Option.some.inj ((hp.linked x c₀ hheld).symm.trans (hcid ▸ hparent))
      exact hxo ((hoff x).2 (.inl hxs))
  have hcc := hp.contained x c₀ hheld
  have hco : c₀ ∉ off := fun hmem => ((hoff c₀).1 hmem).elim hsite hcid
  refine ⟨hc₀, hcc, hsite, hcid, hplaced.isCall_eq (index_lt_of_contains hcc) hco, ?_⟩
  rw [hplaced.target?_eq hp hx hxo, Option.isSome_map]

/-- A new node that writes to something has a twin below the scope. -/
theorem exists_twin (hx : s.tree.cells.size ≤ x.index) (hc : s'.tree.place? x = some c) :
    ∃ x', x'.index < s.tree.cells.size ∧ Twin s'.tree x' x ∧ ∀ y, s'.tree.Reaches x y →
      s.tree.cells.size ≤ y.index := by
  have hk := h.kind_eq ▸ kind?_of_get? h.get_eq
  have hxc := contains_of_mem_children (mem_children_of_place? hc)
  rcases h.rewritten.place?_or_copied hp h.resolved.proper hk hxc hx with hnone | ⟨copy, hcopied, hreach⟩
  · rw [hnone] at hc
    cases hc
  · obtain ⟨x', hx', htwin⟩ := hcopied.twin.exists_of_reaches hreach
    rw [h.rewritten.reaches_scope_iff hp hk] at hx'
    refine ⟨x', index_lt_of_contains (hp.forest.contains_of_reaches ?_ hx'), htwin, fun y hy =>
      (hcopied.plain y (hreach.trans hy)).1⟩
    refine hp.contained id scope ?_
    rw [children_of_kind? hk]
    exact List.mem_cons_self

/-- **A complaint turns a place into a call if and only if the call takes the place of one.** -/
theorem assignable_iff (ha : s.tree.Assignable) :
    s'.tree.Assignable ↔ ∀ x, s.tree.place? x ≠ some (s.tree.site id) := by
  constructor
  · intro hassignable x hx
    obtain ⟨top, new, off, hplaced, hcall, hoff⟩ := h.rewritten.exists_placed_site hp
    have hheld := mem_children_of_place? hx
    obtain rfl : x = top := Option.some.inj ((hp.linked x _ hheld).symm.trans (hp.linked top _ hplaced.held))
    have hplace := hplaced.place?_eq hp (index_lt_of_contains (contains_of_mem_children hheld)) hplaced.top_not_mem
    rw [hx, Option.map_some, standIn, if_pos rfl] at hplace
    rw [hassignable x new hplace] at hcall
    cases hcall
  · intro hfree
    have hold : ∀ x c, x.index < s.tree.cells.size → s'.tree.place? x = some c → s'.tree.isCall c = false :=
      fun x c hx hc => by
        obtain ⟨hc₀, -, -, -, hcall, -⟩ := h.place?_old hp hx hc (hfree x)
        rw [hcall, ha x c hc₀]
    intro x c hc
    by_cases hx : x.index < s.tree.cells.size
    · exact hold x c hx hc
    · -- in the copy it is as in the scope
      obtain ⟨x', hx', htwin, -⟩ := h.exists_twin hp (Nat.not_lt.1 hx) hc
      obtain ⟨c', hc', hctwin, -⟩ := htwin.place?_eq_some hc
      rw [hctwin.isCall_eq, hold x' c' hx' hc']

omit hp in
theorem tracks_eq : s'.resolver.tracks = s.resolver.tracks := by
  rw [h.resolved.resolver_eq]
  rfl

omit hp in
/-- No access that was there comes to be looked after. -/
theorem minds_of_minds (hx : x.index < s.tree.cells.size) (hxid : x ≠ id) (hminds : Minds s' x) : Minds s x := by
  rcases hminds with hpending | htracks
  · rw [h.resolved.resolver_eq] at hpending
    rcases List.mem_append.1 hpending with hmem | hfound
    · exact .inl (List.mem_of_mem_erase hmem)
    · exact absurd hx (Nat.not_lt.2 ((h.resolved.mem_found x).1 hfound).1)
  · rw [h.tracks_eq] at htracks
    refine .inr ?_
    unfold Resolver.tracks at htracks ⊢
    rwa [h.resolved.member_eq x hx hxid] at htracks

omit hp in
/-- Of the new nodes, those that are looked after are accesses. -/
theorem tracks_of_minds (hs : Secure s) (hx : s.tree.cells.size ≤ x.index) (hminds : Minds s' x) :
    s'.resolver.tracks s'.tree x = true := by
  rcases hminds with hpending | htracks
  · rw [h.resolved.resolver_eq] at hpending
    rw [h.tracks_eq]
    rcases List.mem_append.1 hpending with hmem | hfound
    · exact absurd (hs.index_lt x (List.mem_of_mem_erase hmem)) (Nat.not_lt.2 hx)
    · exact ((h.resolved.mem_found x).1 hfound).2
  · exact htracks

/-- **What is secure stays so.** -/
theorem secure (hs : Secure s) : Secure s' := by
  have hpending : Minds s id := .inl (List.mem_of_find?_eq_some h.find_eq)
  have hfree : ∀ x, s.tree.place? x ≠ some (s.tree.site id) := fun x => hs.place?_ne hp hpending
  obtain ⟨top, new, off, hplaced, hcall, hoff⟩ := h.rewritten.exists_placed_site hp
  have htwins : ∀ {a a'}, Twin s'.tree a a' → s.tree.cells.size ≤ a'.index → Minds s' a' → Minds s' a :=
    fun {a a'} htwin hle hminds => by
      have htracks := h.tracks_of_minds hs hle hminds
      refine .inr ?_
      unfold Resolver.tracks at htracks ⊢
      rwa [htwin.member?_eq] at htracks
  have hoperand : ∀ x c, x.index < s.tree.cells.size → s'.tree.place? x = some c → s'.tree.target? x = none →
      ¬ Minds s' c := fun x c hx hc hnone hminds => by
    obtain ⟨hc₀, hcc, -, hcid, -, hsome⟩ := h.place?_old hp hx hc (hfree x)
    refine hs.operand x c hc₀ ?_ (h.minds_of_minds (index_lt_of_contains hcc) hcid hminds)
    rw [hnone, Option.isSome_none] at hsome
    exact Option.not_isSome_iff_eq_none.1 (by rw [hsome]; exact Bool.false_ne_true)
  have htarget : ∀ x c a, x.index < s.tree.cells.size → s'.tree.place? x = some c → s'.tree.target? c = some a →
      ¬ Minds s' a := fun x c a hx hc ha hminds => by
    obtain ⟨hc₀, hcc, hsite, hcid, -, -⟩ := h.place?_old hp hx hc (hfree x)
    have hci := index_lt_of_contains hcc
    rw [hplaced.target?_eq hp hci fun hmem => ((hoff c).1 hmem).elim hsite hcid] at ha
    obtain ⟨a₀, ha₀, rfl⟩ := Option.map_eq_some_iff.1 ha
    have hplace := place?_of_target? ha₀
    have hne : a₀ ≠ s.tree.site id := fun heq => hfree c (heq ▸ hplace)
    rw [standIn_of_ne hne] at hminds
    have hac := hp.contained c a₀ (mem_children_of_place? hplace)
    -- an assignment to the access would be the site
    have haid : a₀ ≠ id := fun heq => hsite (site_of_target? hp (heq ▸ ha₀)).symm
    exact hs.target x c a₀ hc₀ ha₀ (h.minds_of_minds (index_lt_of_contains hac) haid hminds)
  refine ⟨fun a ha => ?_, (h.assignable_iff hp hs.assignable).2 hfree, fun x c hc hnone hminds => ?_,
    fun x c a hc ha hminds => ?_⟩
  · rw [h.resolved.resolver_eq] at ha
    rcases List.mem_append.1 ha with hmem | hfound
    · exact Nat.lt_of_lt_of_le (hs.index_lt a (List.mem_of_mem_erase hmem)) hplaced.size_le
    · exact index_lt_of_contains (contains_of_tracks ((h.resolved.mem_found a).1 hfound).2)
  · by_cases hx : x.index < s.tree.cells.size
    · exact hoperand x c hx hc hnone hminds
    · obtain ⟨x', hx', htwin, hnew⟩ := h.exists_twin hp (Nat.not_lt.1 hx) hc
      obtain ⟨c', hc', hctwin, hsome⟩ := htwin.place?_eq_some hc
      refine hoperand x' c' hx' hc' ?_ (htwins hctwin (hnew c (.of_child (mem_children_of_place? hc))) hminds)
      rw [hnone, Option.isSome_none] at hsome
      exact Option.not_isSome_iff_eq_none.1 (by rw [hsome]; exact Bool.false_ne_true)
  · by_cases hx : x.index < s.tree.cells.size
    · exact htarget x c a hx hc ha hminds
    · obtain ⟨x', hx', htwin, hnew⟩ := h.exists_twin hp (Nat.not_lt.1 hx) hc
      obtain ⟨c', hc', hctwin, -⟩ := htwin.place?_eq_some hc
      obtain ⟨a', ha', hatwin⟩ := hctwin.target?_eq_some ha
      have hreach : s'.tree.Reaches x a :=
        (Reaches.of_child (mem_children_of_place? hc)).tail (mem_children_of_place? (place?_of_target? ha))
      exact htarget x' c' a' hx' hc' ha' (htwins hatwin (hnew a hreach) hminds)

end Resolves

/-! ## Any number of complaints -/

/-- **Complaints never make a secure tree insecure.** -/
theorem Secure.resolves (calls : List (Option Layout × Pos)) : ∀ {s : Tracked}, s.tree.Proper → Secure s →
    Ends (calls.mapM (fun c => resolve c.1 c.2)) s (fun _ s' => Secure s') := by
  induction calls with
  | nil => exact fun _ hs => .pure hs
  | cons c calls ih =>
    intro s hp hs
    rw [List.mapM_cons]
    refine .bind (ends_resolve hp c.1 c.2) fun _ s₁ hstep => ?_
    rcases hstep with ⟨-, rfl, -⟩ | ⟨-, id, node, scope, member, found, hr⟩
    · exact .bind (ih hp hs) fun _ _ hs' => .pure hs'
    · exact .bind (ih hr.resolved.proper (hr.secure hp hs)) fun _ _ hs' => .pure hs'

/-- **Which places become calls.** A complaint about an access turns a place that is written to into a call exactly if
the access, or the assignment to it, stands in one. If `++` and `--` are not applied to accesses that are looked after,
and assignments to such accesses are not written to in turn, then no complaints turn any place into a call. -/
theorem assignable_resolves (hp : s.tree.Proper) (ha : s.tree.Assignable) :
    (∀ layout p a, s.resolver.find? s.tree layout p = some a → ∃ s', resolve layout p s = .ok true s' ∧
      (s'.tree.Assignable ↔ ∀ x, s.tree.place? x ≠ some (s.tree.site a))) ∧
    (Secure s → ∀ calls : List (Option Layout × Pos), ∃ answers s',
      calls.mapM (fun c => resolve c.1 c.2) s = .ok answers s' ∧ s'.tree.Assignable) := by
  refine ⟨fun layout p a hfind => ?_, fun hs calls => ?_⟩
  · obtain ⟨b, s', hrun, ⟨-, -, hnone⟩ | ⟨rfl, id, node, scope, member, found, hr⟩⟩ := ends_resolve hp layout p
    · rw [hfind] at hnone
      cases hnone
    · obtain rfl : id = a := Option.some.inj (hr.find_eq.symm.trans hfind)
      exact ⟨s', hrun, hr.assignable_iff hp ha⟩
  · obtain ⟨answers, s', hrun, hs'⟩ := hs.resolves calls hp
    exact ⟨answers, s', hrun, hs'.assignable⟩

open Lowering in
/-- The compound assignment is no place, and becomes a call that hands over another. -/
theorem assignable_resolves_counter : Secure ⟨counter, { properties := ["count"], pending := [⟨8⟩] }⟩ ∧
    ∃ answers s', [(none, ⟨1, 48⟩), (none, ⟨1, 48⟩)].mapM (fun c => resolve c.1 c.2)
      ⟨counter, { properties := ["count"], pending := [⟨8⟩] }⟩ = .ok answers s' ∧ s'.tree.Assignable := by
  have hs : Secure ⟨counter, { properties := ["count"], pending := [⟨8⟩] }⟩ := by decide
  exact ⟨hs, (assignable_resolves proper_counter hs.assignable).2 hs _⟩

/-- The tree of a source file that holds `x.count++` and nothing around it. -/
def increment : Tree :=
  { root := ⟨0⟩
    cells := #[
      some ⟨none, .synthetic, .unit { types := [⟨1⟩] }⟩,
      some ⟨some ⟨0⟩, .span ⟨⟨1, 1⟩, ⟨1, 10⟩⟩, .unary .postInc ⟨2⟩⟩,
      some ⟨some ⟨1⟩, .span ⟨⟨1, 1⟩, ⟨1, 8⟩⟩, .fieldAccess ⟨3⟩ (.placed ⟨1, 3⟩ "count")⟩,
      some ⟨some ⟨2⟩, .span ⟨⟨1, 1⟩, ⟨1, 2⟩⟩, .nameExpr "x"⟩] }

/-- `x.count++` becomes `x.getCount()++`. -/
theorem not_assignable_increment : increment.Proper ∧ increment.Assignable ∧ ∃ s',
    resolve none ⟨1, 3⟩ ⟨increment, .ofAccesses increment [⟨2⟩] ["count"]⟩ = .ok true s' ∧ ¬ s'.tree.Assignable := by
  have hp : increment.Proper := by decide
  have ha : increment.Assignable := by decide
  refine ⟨hp, ha, ?_⟩
  obtain ⟨b, s', hrun, ⟨-, -, hnone⟩ | ⟨rfl, id, node, scope, member, found, hr⟩⟩ :=
    ends_resolve (s := ⟨increment, .ofAccesses increment [⟨2⟩] ["count"]⟩) hp none ⟨1, 3⟩
  · exact absurd hnone (by decide)
  · refine ⟨s', hrun, fun hassignable => (hr.assignable_iff hp ha).1 hassignable ⟨1⟩ ?_⟩
    have hid : some id = some ⟨2⟩ := hr.find_eq.symm.trans (by decide)
    rw [Option.some.inj hid]
    decide

end Resolution

end UniformAccess
