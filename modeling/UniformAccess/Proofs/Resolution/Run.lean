import UniformAccess.Proofs.Lowering.Result
import UniformAccess.Proofs.Resolution.Access
/-!
# Resolving one complaint after the other

One complaint resolves at most one access (`ends_resolve`). So a proper tree stays proper whatever is complained about,
and the accesses that are looked after are at all times those of the tree that name a property.
-/
namespace UniformAccess.Resolution

open UniformAccess.Tree Lowering

variable {s s' : Tracked} {id x : NodeId} {t t' t₀ : Tree} {o : LoweringOptions} {r : Lowered}

/-! ## One complaint -/

theorem exists_of_find? {layout : Option Layout} {p : Pos} (h : s.resolver.find? s.tree layout p = some id) :
    ∃ node scope member, s.tree.get? id = some node ∧ node.kind = .fieldAccess scope member := by
  have hat := List.find?_some h
  unfold Resolver.isAt at hat
  split at hat
  · rename_i scope member hk
    obtain ⟨node, hnode, hkind⟩ := Option.map_eq_some_iff.1 hk
    exact ⟨node, scope, member, hnode, hkind⟩
  · cases hat

/-- **The access that a complaint is about has been resolved**, and is rewritten. -/
structure Resolves (layout : Option Layout) (p : Pos) (s s' : Tracked) (id : NodeId) (node : Node) (scope : NodeId)
    (member : Ident) (found : List NodeId) : Prop where
  find_eq : s.resolver.find? s.tree layout p = some id
  get_eq : s.tree.get? id = some node
  kind_eq : node.kind = .fieldAccess scope member
  resolved : Resolved { s with resolver := { s.resolver with pending := s.resolver.pending.erase id } } s' id found
  rewritten : Rewritten s.tree s'.tree id scope member.name node.loc found
  plain : PlainBelow s.tree s'.tree

/-- **A complaint is about no access, or it resolves one.** -/
theorem ends_resolve (hp : s.tree.Proper) (layout : Option Layout) (p : Pos) : Ends (resolve layout p) s (fun b s' =>
    b = false ∧ s' = s ∧ s.resolver.find? s.tree layout p = none ∨
    b = true ∧ ∃ id node scope member found, Resolves layout p s s' id node scope member found) := by
  unfold resolve
  refine .bind_get ?_
  cases hfind : s.resolver.find? s.tree layout p with
  | none => exact .pure (.inl ⟨rfl, rfl, rfl⟩)
  | some id =>
    obtain ⟨⟨parent, loc, kind⟩, scope, member, hnode, rfl⟩ := exists_of_find? hfind
    have hk : s.tree.kind? id = some (.fieldAccess scope member) := kind?_of_get? hnode
    refine .bind_set ?_
    rw [hnode]
    refine .bind (ends_access (s := ⟨s.tree, { s.resolver with pending := s.resolver.pending.erase id }⟩) hp hk _) ?_
    rintro _ s' ⟨found, hresolved, hrewritten, hplain⟩
    exact .pure (.inr ⟨rfl, id, _, scope, member, found, hfind, hnode, rfl, hresolved, hrewritten, hplain⟩)

/-! ## Complete lists -/

theorem tracks_iff {r : Resolver} : r.tracks t x = true ↔ ∃ name ∈ r.properties, t.member? x = some name := by
  unfold Resolver.tracks
  cases t.member? x with
  | none => simp
  | some name => simp [eq_comm]

/-- **All accesses to properties are looked after, each once, and nothing else is.** -/
structure Complete (s : Tracked) : Prop where
  nodup : s.resolver.pending.Nodup
  mem_iff : ∀ x, x ∈ s.resolver.pending ↔ s.resolver.tracks s.tree x = true

/-- **Resolving an access keeps the list complete.** -/
theorem Complete.resolved {found : List NodeId} (h : Complete s)
    (hr : Resolved { s with resolver := { s.resolver with pending := s.resolver.pending.erase id } } s' id found) :
    Complete s' := by
  have hold : ∀ {x}, x ∈ s.resolver.pending → x.index < s.tree.cells.size := fun hx =>
    index_lt_of_contains (contains_of_tracks ((h.mem_iff _).1 hx))
  have htracks : ∀ x, s'.resolver.tracks s'.tree x = s.resolver.tracks s'.tree x := fun x => by rw [hr.resolver_eq]; rfl
  have hmember : ∀ {x}, x.index < s.tree.cells.size → x ≠ id →
      s.resolver.tracks s'.tree x = s.resolver.tracks s.tree x := fun {x} hx hxid => by
    unfold Resolver.tracks
    rw [hr.member_eq x hx hxid]
  constructor
  · rw [hr.resolver_eq]
    refine List.nodup_append.2 ⟨h.nodup.erase id, hr.nodup, fun x hx y hy hxy => ?_⟩
    have hlt := hold (List.mem_of_mem_erase hx)
    have hle := ((hr.mem_found y).1 hy).1
    rw [hxy] at hlt
    exact absurd hlt (Nat.not_lt.2 hle)
  · intro x
    have hfound : x ∈ found ↔ s.tree.cells.size ≤ x.index ∧ s.resolver.tracks s'.tree x = true := hr.mem_found x
    rw [htracks, hr.resolver_eq, List.mem_append, h.nodup.mem_erase_iff, hfound]
    by_cases hxid : x = id
    · have hgone : s.resolver.tracks s'.tree x = false := by
        unfold Resolver.tracks
        rw [hxid, hr.gone]
        rfl
      simp [hxid ▸ hgone, hxid]
    · by_cases hlt : x.index < s.tree.cells.size
      · rw [hmember hlt hxid, ← h.mem_iff]
        simp [hxid]
      · have hnew : x ∉ s.resolver.pending := fun hx => hlt (hold hx)
        simp [hnew, Nat.not_lt.1 hlt]

/-! ## Any number of complaints -/

/-- **Complaints never fail, and the tree stays proper.** -/
theorem ends_resolves (calls : List (Option Layout × Pos)) : ∀ {s : Tracked}, s.tree.Proper →
    Ends (calls.mapM (fun c => resolve c.1 c.2)) s (fun _ s' => s'.tree.Proper ∧
      s'.resolver.properties = s.resolver.properties ∧ (Complete s → Complete s')) := by
  induction calls with
  | nil => exact fun hp => .pure ⟨hp, rfl, fun h => h⟩
  | cons c calls ih =>
    intro s hp
    rw [List.mapM_cons]
    refine .bind (ends_resolve hp c.1 c.2) fun _ s₁ hstep => ?_
    have hstep : s₁.tree.Proper ∧ s₁.resolver.properties = s.resolver.properties ∧ (Complete s → Complete s₁) := by
      rcases hstep with ⟨-, rfl, -⟩ | ⟨-, id, node, scope, member, found, hr⟩
      · exact ⟨hp, rfl, fun h => h⟩
      · exact ⟨hr.resolved.proper, by rw [hr.resolved.resolver_eq], fun h => h.resolved hr.resolved⟩
    refine .bind (ih hstep.1) fun _ s₂ hrest => .pure ⟨hrest.1, hrest.2.1.trans hstep.2.1, fun h => ?_⟩
    exact hrest.2.2 (hstep.2.2 h)

/-! ## After lowering -/

/-- **A tree stays proper when it is lowered, and when complaints are resolved after that**, and no complaint fails. -/
theorem proper_lower_resolve (o : LoweringOptions) (hp : t.Proper) (hapart : Apart t) (hlower : lower o t = .ok r t') :
    t'.Proper ∧ ∀ (names : List String) (calls : List (Option Layout × Pos)), ∃ answers s,
      calls.mapM (fun c => resolve c.1 c.2) ⟨t', .ofAccesses t' r.accesses names⟩ = .ok answers s ∧ s.tree.Proper := by
  have hin := fun p hprop => exists_holdsMember_of_lower (p := p) hp hlower hprop
  obtain ⟨t₀, done, hbegun, hprogress, -⟩ := (ends_lower (o := o) hp hapart hapart.plainTypes hin).of_eq hlower
  have hp' := hprogress.proper (hbegun.proper hp)
  refine ⟨hp', fun names calls => ?_⟩
  obtain ⟨answers, s, hrun, hs, -⟩ := ends_resolves calls (s := ⟨t', .ofAccesses t' r.accesses names⟩) hp'
  exact ⟨answers, s, hrun, hs⟩

theorem exists_lower_counter : ∃ r t', lower {} counter = .ok r t' := by
  obtain ⟨r, t', hrun, -⟩ := ends_lower proper_counter apart_counter apart_counter.plainTypes fun p hprop => by
    by_contra hnone
    refine not_misplaced_counter p ⟨hprop, fun c => ?_⟩
    rw [Bool.eq_false_iff]
    exact fun hc => hnone ⟨c, hc⟩
  exact ⟨r, t', hrun⟩

/-- A complaint about the access in the tree, and one about nothing. -/
theorem proper_lower_resolve_counter : ∃ r t', lower {} counter = .ok r t' ∧ t'.Proper ∧ ∃ answers s,
    [(none, ⟨1, 48⟩), (none, ⟨3, 1⟩)].mapM (fun c => resolve c.1 c.2) ⟨t', .ofAccesses t' r.accesses ["count"]⟩ =
      .ok answers s ∧ s.tree.Proper := by
  obtain ⟨r, t', hlower⟩ := exists_lower_counter
  obtain ⟨hp', hcalls⟩ := proper_lower_resolve {} proper_counter apart_counter hlower
  exact ⟨r, t', hlower, hp', hcalls ["count"] _⟩

/-- **No access is lost, and none is invented.** If the types of properties hold no accesses, the accesses that are
looked after are at all times the accesses of the tree to one of the names, each once. -/
theorem pending_eq_accesses (o : LoweringOptions) (hp : t.Proper) (hapart : Apart t)
    (hty : ∀ p d, t.kind? p = some (.property d) → ∀ x, t.Reaches d.ty x → t.member? x = none)
    (hlower : lower o t = .ok r t') (names : List String) (calls : List (Option Layout × Pos)) : ∃ answers s,
      calls.mapM (fun c => resolve c.1 c.2) ⟨t', .ofAccesses t' r.accesses names⟩ = .ok answers s ∧
      s.resolver.pending.Nodup ∧ ∀ x, x ∈ s.resolver.pending ↔
        s.tree.Reaches s.tree.root x ∧ ∃ name ∈ names, s.tree.member? x = some name := by
  have hin := fun p hprop => exists_holdsMember_of_lower (p := p) hp hlower hprop
  obtain ⟨t₀, done, hbegun, hprogress, -, -, -, haccesses⟩ :=
    (ends_lower (o := o) hp hapart (hapart.plainTypes_strict hty) hin).of_eq hlower
  have hp' := hprogress.proper (hbegun.proper hp)
  have hcomplete : Complete ⟨t', .ofAccesses t' r.accesses names⟩ := by
    rw [haccesses]
    refine ⟨((hp.forest.nodup_descendants _).filter _).filter _, fun x => List.mem_filter.trans ?_⟩
    refine ⟨fun hx => hx.2, fun hx => ⟨?_, hx⟩⟩
    obtain ⟨name, -, hname⟩ := tracks_iff.1 hx
    exact mem_accesses_of_progress hp hbegun hprogress hname
  obtain ⟨answers, s, hrun, hs, hnames, hkeep⟩ := ends_resolves calls (s := ⟨t', .ofAccesses t' r.accesses names⟩) hp'
  refine ⟨answers, s, hrun, (hkeep hcomplete).nodup, fun x => ?_⟩
  rw [(hkeep hcomplete).mem_iff, tracks_iff, hnames, hs.reaches_iff_contains]
  refine ⟨fun hx => ⟨?_, hx⟩, fun hx => hx.2⟩
  obtain ⟨name, -, hname⟩ := hx
  obtain ⟨k, hk, -⟩ := Option.bind_eq_some_iff.1 hname
  exact contains_of_kind? hk

theorem pending_eq_accesses_counter : ∃ r t', lower {} counter = .ok r t' ∧ ∃ answers s,
    [(none, ⟨1, 48⟩)].mapM (fun c => resolve c.1 c.2) ⟨t', .ofAccesses t' r.accesses ["count"]⟩ = .ok answers s ∧
      s.resolver.pending.Nodup ∧ ∀ x, x ∈ s.resolver.pending ↔
        s.tree.Reaches s.tree.root x ∧ ∃ name ∈ ["count"], s.tree.member? x = some name := by
  have hty : ∀ p d, counter.kind? p = some (.property d) → ∀ x, counter.Reaches d.ty x → counter.member? x = none := by
    intro p d hd x hx
    have hp : p ∈ [⟨2⟩] := (by decide : properties counter = [⟨2⟩]) ▸
      (mem_properties proper_counter).2 (isProperty_iff.2 ⟨d, hd⟩)
    rw [List.mem_singleton.1 hp] at hd
    cases hd
    have hmem : x ∈ counter.descendants ⟨3⟩ := (proper_counter.forest.mem_descendants (by decide)).2 hx
    rw [(by decide : counter.descendants ⟨3⟩ = [⟨3⟩]), List.mem_singleton] at hmem
    rw [hmem]
    rfl
  obtain ⟨r, t', hlower⟩ := exists_lower_counter
  exact ⟨r, t', hlower, pending_eq_accesses {} proper_counter apart_counter hty hlower ["count"] _⟩

end UniformAccess.Resolution
