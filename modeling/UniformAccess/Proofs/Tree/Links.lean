import UniformAccess.Proofs.Tree.Proper
/-!
# Parent links

The tree lists the nodes below the root that do not know who holds them, level by level. An `Audit` is the same search
with a queue, and no bound on its steps: if there is no cycle below the root, the queue runs empty, and what it has
found is what the tree lists (`AcyclicBelow.audits`). These are exactly the nodes that a way down from the root shows
to be badly linked (`AcyclicBelow.mem_misparented`), so nothing is listed if and only if every link below the root is
right (`WellLinked`). Each way down is then a way up as well, which makes every node below the root an attached one.
-/
namespace UniformAccess.Tree

variable {t : Tree} {a b c p q x : NodeId} {n : Nat} {level : List NodeId}

/-! ## Right links -/

/-- **Every link below the root is right**: the root has no parent, and what a node holds knows this node. -/
structure WellLinked (t : Tree) : Prop where
  parentless : t.parent? t.root = none
  linked : ∀ p, t.Reaches t.root p → ∀ c ∈ t.children p, t.parent? c = some p

/-- The last step of a way down. -/
theorem ReachesIn.exists_holder : ∀ {n : Nat} {a : NodeId}, t.ReachesIn (n + 1) a b →
    ∃ p, t.ReachesIn n a p ∧ b ∈ t.children p
  | 0, a, ⟨_, hc, rfl⟩ => ⟨a, rfl, hc⟩
  | _ + 1, _, ⟨c, hc, h⟩ => by
    obtain ⟨p, hp, hb⟩ := h.exists_holder
    exact ⟨p, ⟨c, hc, hp⟩, hb⟩

namespace WellLinked

/-- **No node below the root has two holders there.** -/
theorem holder_unique (h : t.WellLinked) (hp : t.Reaches t.root p) (hq : t.Reaches t.root q) (hpc : c ∈ t.children p)
    (hqc : c ∈ t.children q) : p = q :=
  Option.some.inj ((h.linked p hp c hpc).symm.trans (h.linked q hq c hqc))

theorem root_not_mem_children (h : t.WellLinked) (hp : t.Reaches t.root p) : t.root ∉ t.children p := fun hroot => by
  have hparent := h.linked p hp t.root hroot
  rw [h.parentless] at hparent
  cases hparent

/-- The way up from a node leads to the root in as many steps as the way down from there. -/
theorem root_mem_climb (h : t.WellLinked) : ∀ {k n : Nat} {x : NodeId}, t.ReachesIn (k + 1) t.root x → k < n →
    t.root ∈ t.climb n x
  | k, n + 1, x, hx, hk => by
    obtain ⟨p, hp, hpx⟩ := hx.exists_holder
    rw [climb, h.linked p hp.reaches x hpx]
    cases k with
    | zero =>
      obtain rfl : t.root = p := hp
      exact List.mem_cons_self
    | succ k => exact List.mem_cons_of_mem _ (h.root_mem_climb hp (Nat.lt_of_succ_lt_succ hk))

/-- **What lies below the root is attached.** -/
theorem isAttached (h : t.WellLinked) (hac : t.AcyclicBelow t.root) (hx : t.Reaches t.root x) :
    t.isAttached x = true := by
  unfold Tree.isAttached ancestors
  rw [Bool.or_eq_true, beq_iff_eq, List.contains_iff_mem]
  obtain ⟨k, hk⟩ := hx.exists_reachesIn
  cases k with
  | zero => exact .inl hk.symm
  | succ k =>
    obtain ⟨p, hp, hpx⟩ := hk.exists_holder
    have hlt := hac.lt_height hk (contains_of_parent? (h.linked p hp.reaches x hpx))
    exact .inr (h.root_mem_climb hk (Nat.lt_of_succ_lt hlt))

end WellLinked

theorem Proper.wellLinked (hp : t.Proper) : t.WellLinked := ⟨hp.parentless, fun p _ => hp.linked p⟩

/-- **Every node of a proper tree is attached.** -/
theorem Proper.isAttached (hp : t.Proper) (hx : t.contains x = true) : t.isAttached x = true :=
  hp.wellLinked.isAttached (fun y _ => hp.forest.acyclic y) (hp.reached x hx)

/-! ## What is listed -/

theorem isLinked_iff : t.isLinked (p, c) = true ↔ t.parent? c = some p := by
  unfold isLinked parent?
  cases t.get? c <;> simp

theorem mem_links : (p, c) ∈ t.links level ↔ p ∈ level ∧ c ∈ t.children p := by
  simp [links]

theorem links_cons : t.links (p :: level) = (t.children p).map (p, ·) ++ t.links level := rfl

theorem misparentedBelow_zero (level : List NodeId) : t.misparentedBelow 0 level = [] := by
  cases level <;> rfl

theorem misparentedBelow_succ (level : List NodeId) :
    t.misparentedBelow (n + 1) level = ((t.links level).filter (!t.isLinked ·)).map (·.2)
      ++ t.misparentedBelow n (((t.links level).map (·.2)).filter t.contains) := by
  cases level with
  | nil => cases n <;> rfl
  | cons p level => rfl

/-- A way down to a node that holds something starts at a node that is there. -/
theorem ReachesIn.contains_of_mem_children : ∀ {k : Nat} {a : NodeId}, t.ReachesIn k a p → c ∈ t.children p →
    t.contains a = true
  | 0, _, rfl, hc => Tree.contains_of_mem_children hc
  | _ + 1, _, ⟨_, hd, _⟩, _ => Tree.contains_of_mem_children hd

/-- The search down to a depth lists what is badly linked above it. -/
theorem mem_misparentedBelow : ∀ {n : Nat} {level : List NodeId}, x ∈ t.misparentedBelow n level ↔
    ∃ a ∈ level, ∃ k < n, ∃ p, t.ReachesIn k a p ∧ x ∈ t.children p ∧ t.parent? x ≠ some p
  | 0, level => by simp [misparentedBelow_zero]
  | n + 1, level => by
    have hhere : x ∈ ((t.links level).filter (!t.isLinked ·)).map (·.2) ↔
        ∃ p ∈ level, x ∈ t.children p ∧ t.parent? x ≠ some p := by
      simp [mem_links, ← isLinked_iff, and_assoc]
    have hnext : ∀ c, c ∈ ((t.links level).map (·.2)).filter t.contains ↔
        (∃ p ∈ level, c ∈ t.children p) ∧ t.contains c = true := by
      simp [mem_links]
    rw [misparentedBelow_succ, List.mem_append, hhere, mem_misparentedBelow]
    constructor
    · rintro (⟨p, hp, hx⟩ | ⟨c, hc, k, hk, p, hcp, hx⟩)
      · exact ⟨p, hp, 0, Nat.succ_pos n, p, rfl, hx⟩
      · obtain ⟨⟨a, ha, hac⟩, -⟩ := (hnext c).1 hc
        exact ⟨a, ha, k + 1, Nat.succ_lt_succ hk, p, ⟨c, hac, hcp⟩, hx⟩
    · rintro ⟨a, ha, k, hk, p, hap, hx⟩
      cases k with
      | zero =>
        obtain rfl : a = p := hap
        exact .inl ⟨a, ha, hx⟩
      | succ k =>
        -- the way goes on to a node with a child, so its next node is there and not left out of the next level
        obtain ⟨c, hac, hcp⟩ := hap
        have hc := (hnext c).2 ⟨⟨a, ha, hac⟩, hcp.contains_of_mem_children hx.1⟩
        exact .inr ⟨c, hc, k, Nat.lt_of_succ_lt_succ hk, p, hcp, hx⟩

/-- **A node is listed if it is the root and has a parent, or if a node below the root holds it and it does not know**,
and in no other case. -/
theorem AcyclicBelow.mem_misparented (hac : t.AcyclicBelow t.root) : x ∈ t.misparented ↔
    (x = t.root ∧ t.parent? t.root ≠ none) ∨ ∃ p, t.Reaches t.root p ∧ x ∈ t.children p ∧ t.parent? x ≠ some p := by
  have hroot : x ∈ (if (t.parent? t.root).isSome then [t.root] else []) ↔ x = t.root ∧ t.parent? t.root ≠ none := by
    cases t.parent? t.root <;> simp
  unfold misparented
  rw [List.mem_append, hroot, mem_misparentedBelow]
  refine or_congr_right ⟨?_, ?_⟩
  · rintro ⟨a, ha, k, -, p, hap, hx⟩
    obtain rfl := List.mem_singleton.1 ha
    exact ⟨p, hap.reaches, hx⟩
  · rintro ⟨p, hp, hx⟩
    obtain ⟨k, hk⟩ := hp.exists_reachesIn
    exact ⟨t.root, List.mem_cons_self, k, hac.lt_height hk (Tree.contains_of_mem_children hx.1), p, hk, hx⟩

/-- **Nothing is listed if and only if every link is right.** -/
theorem AcyclicBelow.misparented_eq_nil_iff (hac : t.AcyclicBelow t.root) : t.misparented = [] ↔ t.WellLinked := by
  rw [List.eq_nil_iff_forall_not_mem]
  constructor
  · intro hnone
    refine ⟨?_, fun p hp c hc => ?_⟩
    · by_contra hparent
      exact hnone t.root (hac.mem_misparented.2 (.inl ⟨rfl, hparent⟩))
    · by_contra hparent
      exact hnone c (hac.mem_misparented.2 (.inr ⟨p, hp, hc, hparent⟩))
  · intro h x hx
    rcases hac.mem_misparented.1 hx with ⟨-, hparent⟩ | ⟨p, hp, hpx, hparent⟩
    · exact hparent h.parentless
    · exact hparent (h.linked p hp x hpx)

/-! ## The search with a queue -/

/-- How far a search has come: the nodes whose children are still to be looked at, the next one first, and those found
to be badly linked. -/
structure Audit where
  queue : List NodeId
  faults : List NodeId

/-- At first there is the root to look at, and to find fault with if it has a parent. -/
def auditStart (t : Tree) : Audit := ⟨[t.root], if (t.parent? t.root).isSome then [t.root] else []⟩

/-- A child is looked at: it goes on the queue if it is there, and is a fault if it is not there or does not know its
holder. -/
def auditChild (t : Tree) (holder : NodeId) (s : Audit) (c : NodeId) : Audit :=
  match t.get? c with
  | none => { s with faults := s.faults ++ [c] }
  | some node =>
    if node.parent = some holder then { s with queue := s.queue ++ [c] }
    else { queue := s.queue ++ [c], faults := s.faults ++ [c] }

/-- One step: the head of the queue is taken off, and its children are looked at. -/
def auditStep (t : Tree) : Audit → Option Audit
  | ⟨[], _⟩ => none
  | ⟨id :: queue, faults⟩ => some ((t.children id).foldl (t.auditChild id) ⟨queue, faults⟩)

/-- **Some number of steps of a search.** -/
def Audits (t : Tree) : Audit → Audit → Prop := Relation.ReflTransGen (fun s s' => t.auditStep s = some s')

theorem foldl_auditChild (cs queue faults : List NodeId) : cs.foldl (t.auditChild p) ⟨queue, faults⟩ =
    ⟨queue ++ cs.filter t.contains, faults ++ cs.filter (fun c => !t.isLinked (p, c))⟩ := by
  induction cs generalizing queue faults with
  | nil => simp
  | cons c cs ih =>
    rw [List.foldl_cons, auditChild]
    cases hc : t.get? c with
    | none => simp [ih, contains, isLinked, hc]
    | some node => by_cases hparent : node.parent = some p <;> simp [ih, contains, isLinked, hc, hparent]

/-- **The queue serves one level after the other**: by the time it is through with a level, the next one has come up
behind what was in the queue. -/
theorem audits_level (t : Tree) (level queue faults : List NodeId) : t.Audits ⟨level ++ queue, faults⟩
    ⟨queue ++ ((t.links level).map (·.2)).filter t.contains,
      faults ++ ((t.links level).filter (!t.isLinked ·)).map (·.2)⟩ := by
  induction level generalizing queue faults with
  | nil =>
    simp only [links, List.flatMap_nil, List.map_nil, List.filter_nil, List.append_nil, List.nil_append]
    exact .refl
  | cons p level ih =>
    have hstep : t.auditStep ⟨p :: level ++ queue, faults⟩ =
        some ⟨level ++ (queue ++ (t.children p).filter t.contains),
          faults ++ (t.children p).filter (fun c => !t.isLinked (p, c))⟩ := by
      rw [List.cons_append, auditStep, foldl_auditChild, List.append_assoc]
    have hqueue : ((t.links (p :: level)).map (·.2)).filter t.contains =
        (t.children p).filter t.contains ++ ((t.links level).map (·.2)).filter t.contains := by
      simp [links_cons, Function.comp_def]
    have hfaults : ((t.links (p :: level)).filter (!t.isLinked ·)).map (·.2) =
        (t.children p).filter (fun c => !t.isLinked (p, c)) ++ ((t.links level).filter (!t.isLinked ·)).map (·.2) := by
      simp [links_cons, List.filter_map, Function.comp_def]
    rw [hqueue, hfaults, ← List.append_assoc queue, ← List.append_assoc faults]
    exact Relation.ReflTransGen.head hstep (ih _ _)

/-- A search that goes deep enough lists what the queue finds. -/
theorem audits_misparentedBelow : ∀ {n : Nat} {level faults : List NodeId},
    (∀ a ∈ level, ∀ k x, t.contains x = true → t.ReachesIn k a x → k < n) →
    t.Audits ⟨level, faults⟩ ⟨[], faults ++ t.misparentedBelow n level⟩
  | 0, level, faults, h => by
    -- no node of this level is there (the root itself may be gone), so that nothing hangs on it
    have hempty : t.links level = [] := List.eq_nil_iff_forall_not_mem.2 fun ⟨p, c⟩ hlink => by
      obtain ⟨hp, hc⟩ := mem_links.1 hlink
      exact absurd (h p hp 0 p (contains_of_mem_children hc) rfl) (Nat.lt_irrefl 0)
    have hlevel := t.audits_level level [] faults
    rw [hempty, List.append_nil] at hlevel
    rwa [misparentedBelow_zero]
  | n + 1, level, faults, h => by
    have hlevel := t.audits_level level [] faults
    rw [List.append_nil, List.nil_append] at hlevel
    rw [misparentedBelow_succ, ← List.append_assoc]
    refine hlevel.trans (audits_misparentedBelow fun c hc k x hx hk => ?_)
    obtain ⟨⟨p, c⟩, hlink, rfl⟩ := List.mem_map.1 (List.mem_filter.1 hc).1
    obtain ⟨hp, hpc⟩ := mem_links.1 hlink
    exact Nat.lt_of_succ_lt_succ (h p hp (k + 1) x hx ⟨c, hpc, hk⟩)

/-- **The queue runs empty, and has found what the tree lists.** -/
theorem AcyclicBelow.audits (hac : t.AcyclicBelow t.root) : t.Audits t.auditStart ⟨[], t.misparented⟩ :=
  audits_misparentedBelow fun a ha k x hx hk => by
    obtain rfl := List.mem_singleton.1 ha
    exact hac.lt_height hk hx

/-- **The check of the parent links is exact.** Let there be no cycle below the root. The search with a queue ends, and
it finds what the tree lists. Nothing is listed if and only if the root has no parent and each child of a node below
the root is there and knows its holder. Then no node has two holders below the root, none of them holds the root, and
all of them are attached. -/
theorem parentLinks_checked (hac : t.AcyclicBelow t.root) :
    t.Audits t.auditStart ⟨[], t.misparented⟩ ∧
    (t.misparented = [] ↔ t.parent? t.root = none ∧
      ∀ p, t.Reaches t.root p → ∀ c ∈ t.children p, t.contains c = true ∧ t.parent? c = some p) ∧
    (t.misparented = [] →
      (∀ p q c, t.Reaches t.root p → t.Reaches t.root q → c ∈ t.children p → c ∈ t.children q → p = q) ∧
      (∀ p, t.Reaches t.root p → t.root ∉ t.children p) ∧
      ∀ x, t.Reaches t.root x → t.isAttached x = true) := by
  rw [hac.misparented_eq_nil_iff]
  refine ⟨hac.audits, ⟨fun h => ⟨h.parentless, fun p hp c hc => ?_⟩,
    fun ⟨hroot, hlinked⟩ => ⟨hroot, fun p hp c hc => ?_⟩⟩,
    fun h => ⟨fun p q c => h.holder_unique, fun p => h.root_not_mem_children, fun x => h.isAttached hac⟩⟩
  · have hparent := h.linked p hp c hc
    exact ⟨contains_of_parent? hparent, hparent⟩
  · exact (hlinked p hp c hc).2

/-- Faults on every level: a block that does not know the source file, a statement in it that takes its sibling for its
holder, and in this sibling a number whose node is gone. -/
def slipped : Tree :=
  { root := ⟨0⟩
    cells := #[
      some ⟨none, .synthetic, .unit { types := [⟨1⟩] }⟩,
      some ⟨none, .synthetic, .block [⟨2⟩, ⟨3⟩]⟩,
      some ⟨some ⟨1⟩, .synthetic, .block [⟨4⟩, ⟨5⟩]⟩,
      some ⟨some ⟨2⟩, .synthetic, .emptyStmt⟩,
      some ⟨some ⟨2⟩, .synthetic, .emptyStmt⟩,
      none] }

/-- A block in a block, with one statement in two places. -/
def terraced : Tree :=
  { root := ⟨0⟩
    cells := #[
      some ⟨none, .synthetic, .unit { types := [⟨1⟩] }⟩,
      some ⟨some ⟨0⟩, .synthetic, .block [⟨2⟩, ⟨3⟩]⟩,
      some ⟨some ⟨1⟩, .synthetic, .block [⟨4⟩, ⟨4⟩]⟩,
      some ⟨some ⟨1⟩, .synthetic, .emptyStmt⟩,
      some ⟨some ⟨2⟩, .synthetic, .emptyStmt⟩] }

theorem parentLinks_checked_terraced :
    slipped.Audits ⟨[⟨0⟩], []⟩ ⟨[], [⟨1⟩, ⟨3⟩, ⟨5⟩]⟩ ∧ terraced.misparented = [] ∧ terraced.isAttached ⟨4⟩ = true ∧
      ∀ p, terraced.Reaches ⟨0⟩ p → ⟨4⟩ ∈ terraced.children p → p = ⟨2⟩ := by
  have hslipped : slipped.Acyclic := acyclic_of_index_lt (by decide)
  have hterraced : terraced.Acyclic := acyclic_of_index_lt (by decide)
  obtain ⟨haudits, -, -⟩ := parentLinks_checked (t := slipped) fun x _ => hslipped x
  obtain ⟨-, -, hright⟩ := parentLinks_checked (t := terraced) fun x _ => hterraced x
  obtain ⟨hsingle, -, hattached⟩ := hright (by decide)
  have htwo : terraced.Reaches ⟨0⟩ ⟨2⟩ :=
    (Reaches.of_child (c := ⟨1⟩) (by decide)).tail (by decide : _ ∈ terraced.children _)
  have hfour : ⟨4⟩ ∈ terraced.children ⟨2⟩ := by decide
  have hfaults : slipped.misparented = [⟨1⟩, ⟨3⟩, ⟨5⟩] := by decide
  rw [hfaults] at haudits
  exact ⟨haudits, by decide, hattached ⟨4⟩ (htwo.tail hfour), fun p hp hpc => hsingle p ⟨2⟩ ⟨4⟩ hp htwo hpc hfour⟩

/-- An empty source file, and a block that holds it and hangs nowhere. -/
def propped : Tree :=
  { root := ⟨0⟩
    cells := #[some ⟨none, .synthetic, .unit {}⟩, some ⟨none, .synthetic, .block [⟨0⟩]⟩] }

/-- **The root may be held by a node that is not below it**: the check goes down from the root and does not see this
node. -/
theorem root_held_in_propped :
    propped.AcyclicBelow propped.root ∧ propped.misparented = [] ∧ ¬ ∀ p, propped.root ∉ propped.children p := by
  have hleaf : propped.children propped.root = [] := by decide
  refine ⟨.of_children fun c hc => ?_, by decide, fun h => h ⟨1⟩ (by decide)⟩
  rw [hleaf] at hc
  cases hc

end UniformAccess.Tree
