import UniformAccess.Proofs.Lowering.Nested
import UniformAccess.Proofs.Pipeline.Target
/-!
# Which accesses a pipeline looks after

The first run after a unit was added hands the accesses of the unit to its resolver, with the names of the properties
that the pipeline knows by then. From then on the accesses that are looked after are those of the tree to one of these
names, each once, whatever is added and run later (`pending_eq_known`). A property of a unit that was added after that
run is not among them: an access to it in the older unit is not looked after in any later run
(`exists_access_not_pending`).
-/
namespace UniformAccess

open Lowering Resolution

variable {t t' : Tree} {o : LoweringOptions} {names : List String} {x : NodeId}

/-! ## Before and after the accesses are handed over -/

/-- **A list with all accesses of a tree.** -/
structure Listed (accesses : List NodeId) (t : Tree) : Prop where
  proper : t.Proper
  nodup : accesses.Nodup
  mem : ∀ x name, t.member? x = some name → x ∈ accesses

/-- **If the types of properties hold no accesses, lowering lists the accesses of the tree it leaves.** -/
theorem Listed.of_lower {r : Lowered} (hp : t.Proper)
    (hty : ∀ p d, t.kind? p = some (.property d) → ∀ x, t.Reaches d.ty x → t.member? x = none)
    (hlower : lower o t = .ok r t') : Listed r.accesses t' := by
  have hapart := apart_of_lower hp hlower
  have hin := fun p hprop => exists_holdsMember_of_lower (p := p) hp hlower hprop
  obtain ⟨t₀, done, hbegun, hprogress, -, -, -, haccesses⟩ :=
    (ends_lower (o := o) hp hapart (hapart.plainTypes_strict hty) hin).of_eq hlower
  rw [haccesses]
  refine ⟨hprogress.proper (hbegun.proper hp), (hp.forest.nodup_descendants _).filter _, fun x name hname => ?_⟩
  exact mem_accesses_of_progress hp hbegun hprogress hname

/-- **A tree whose accesses to some names are looked after.** A tree without accesses is one for all names. -/
structure LookedAfter (names : List String) (s : Tracked) : Prop where
  proper : s.tree.Proper
  complete : Complete s
  names_eq : s.resolver.properties = names ∨ ∀ x, s.tree.member? x = none

namespace LookedAfter

theorem of_listed {accesses : List NodeId} (h : Listed accesses t) (names : List String) :
    LookedAfter names ⟨t, .ofAccesses t accesses names⟩ := by
  refine ⟨h.proper, ⟨h.nodup.filter _, fun x => List.mem_filter.trans ?_⟩, .inl rfl⟩
  refine ⟨fun hx => hx.2, fun hx => ⟨?_, hx⟩⟩
  obtain ⟨name, -, hname⟩ := tracks_iff.1 hx
  exact h.mem x name hname

theorem of_listed_nil (h : Listed [] t) (names : List String) : LookedAfter names ⟨t, {}⟩ := by
  have hnone : ∀ x, t.member? x = none := fun x => by
    cases hx : t.member? x with
    | none => rfl
    | some name => exact absurd (h.mem x name hx) List.not_mem_nil
  refine ⟨h.proper, ⟨List.nodup_nil, fun x => ?_⟩, .inr hnone⟩
  rw [tracks_iff]
  exact ⟨fun hx => absurd hx List.not_mem_nil, fun ⟨_, hmem, _⟩ => absurd hmem List.not_mem_nil⟩

theorem mem_pending_iff {s : Tracked} (h : LookedAfter names s) : x ∈ s.resolver.pending ↔
    s.tree.Reaches s.tree.root x ∧ ∃ name ∈ names, s.tree.member? x = some name := by
  have hreaches : ∀ {name}, s.tree.member? x = some name → s.tree.Reaches s.tree.root x := fun hname => by
    obtain ⟨k, hk, -⟩ := Option.bind_eq_some_iff.1 hname
    exact h.proper.reaches_iff_contains.2 (Tree.contains_of_kind? hk)
  rw [h.complete.mem_iff, tracks_iff]
  rcases h.names_eq with heq | hnone
  · rw [heq]
    exact ⟨fun ⟨name, hmem, hname⟩ => ⟨hreaches hname, name, hmem, hname⟩, fun hx => hx.2⟩
  · simp [hnone x]

/-- **A complaint leaves the accesses looked after.** -/
theorem ends_resolve {s : Tracked} (h : LookedAfter names s) (layout : Option Layout) (pos : Pos) :
    Ends (resolve layout pos) s (fun _ s' => LookedAfter names s') := by
  refine (Resolution.ends_resolve h.proper layout pos).mono fun _ s' hend => ?_
  rcases hend with ⟨-, rfl, -⟩ | ⟨-, id, node, scope, member, found, hr⟩
  · exact h
  · refine ⟨hr.resolved.proper, h.complete.resolved hr.resolved, .inl ?_⟩
    rcases h.names_eq with heq | hnone
    · rw [hr.resolved.resolver_eq]
      exact heq
    · -- a complaint is about an access, and there is none
      have hmember : s.tree.member? id = some member.name := by
        unfold Tree.member? Tree.kind?
        rw [hr.get_eq, Option.map_some, hr.kind_eq]
        rfl
      rw [hnone id] at hmember
      cases hmember

end LookedAfter

/-! ## What the units of a pipeline know -/

/-- A unit that waits for its first run, or one that looks after the accesses to the names that were known
at that run. -/
def PipelineUnit.Knows (u : PipelineUnit) : Option (List String) → Prop
  | none => u.tracked.resolver = {} ∧ Listed u.accesses u.tree
  | some names => u.accesses = [] ∧ LookedAfter names u.tracked

/-- **The units of a pipeline know what is said of them**, and the pipeline knows all the names that they do. -/
structure Pipeline.Informed (known : List (Option (List String))) (p : Pipeline) : Prop where
  length_eq : known.length = p.units.length
  unit : ∀ (i : Nat) (u : PipelineUnit) (k : Option (List String)), p.units[i]? = some u → known[i]? = some k →
    u.Knows k
  subset : ∀ names, some names ∈ known → ∀ name ∈ names, name ∈ p.properties

/-- What a unit knows after a run: what it knew before, and at its first run what the pipeline knows. -/
def handed (names : List String) (k : Option (List String)) : Option (List String) := some (k.getD names)

namespace Pipeline.Informed

variable {known : List (Option (List String))} {p : Pipeline}

theorem add (h : p.Informed known) {u : PipelineUnit} (hu : u.Knows none) {properties : List String}
    (hsub : ∀ name ∈ p.properties, name ∈ properties) :
    { p with units := p.units ++ [u], properties }.Informed (known ++ [none]) where
  length_eq := by rw [List.length_append, List.length_append, h.length_eq]; rfl
  unit i v k hv hk := by
    rcases Nat.lt_or_ge i p.units.length with hi | hi
    · rw [List.getElem?_append_left hi] at hv
      rw [List.getElem?_append_left (h.length_eq ▸ hi)] at hk
      exact h.unit i v k hv hk
    · rw [List.getElem?_append_right hi] at hv
      rw [List.getElem?_append_right (h.length_eq ▸ hi)] at hk
      rw [List.mem_singleton.1 (List.mem_of_getElem? hv), List.mem_singleton.1 (List.mem_of_getElem? hk)]
      exact hu
  subset names hmem name hname := by
    rcases List.mem_append.1 hmem with hmem | hmem
    · exact hsub name (h.subset names hmem name hname)
    · cases List.mem_singleton.1 hmem

/-- **A run hands the accesses over.** -/
theorem track (h : p.Informed known) : p.track.Informed (known.map (handed p.properties)) where
  length_eq := by rw [List.length_map, h.length_eq, Pipeline.track, List.length_map]
  unit i v k hv hk := by
    rw [Pipeline.track, List.getElem?_map] at hv
    rw [List.getElem?_map] at hk
    obtain ⟨u, hu, rfl⟩ := Option.map_eq_some_iff.1 hv
    obtain ⟨k₀, hk₀, rfl⟩ := Option.map_eq_some_iff.1 hk
    have hknows := h.unit i u k₀ hu hk₀
    cases k₀ with
    | none =>
      obtain ⟨hresolver, hlisted⟩ := hknows
      by_cases hempty : u.accesses.isEmpty = true
      · rw [if_pos hempty]
        have hnil := List.isEmpty_iff.1 hempty
        rw [hnil] at hlisted
        refine ⟨hnil, ?_⟩
        rw [show u.tracked = ⟨u.tree, {}⟩ from congrArg (Tracked.mk u.tree) hresolver]
        exact .of_listed_nil hlisted _
      · rw [if_neg hempty]
        exact ⟨rfl, .of_listed hlisted _⟩
    | some names =>
      rw [if_pos (List.isEmpty_iff.2 hknows.1)]
      exact hknows
  subset names hmem name hname := by
    obtain ⟨k, hk, heq⟩ := List.mem_map.1 hmem
    cases heq
    cases k with
    | none => exact hname
    | some names => exact h.subset names hk name hname

theorem set {i : Nat} {u u' : PipelineUnit} (h : p.Informed known) (hu : p.units[i]? = some u)
    (hknows : ∀ k, known[i]? = some k → u'.Knows k) : { p with units := p.units.set i u' }.Informed known where
  length_eq := h.length_eq.trans List.length_set.symm
  unit j v k hv hk := by
    dsimp only at hv
    by_cases hij : i = j
    · subst hij
      rw [List.getElem?_set_self (List.getElem?_eq_some_iff.1 hu).1] at hv
      cases hv
      exact hknows k hk
    · rw [List.getElem?_set_ne hij] at hv
      exact h.unit j v k hv hk
  subset := h.subset

/-- A complaint changes nothing about what the units know. -/
theorem keeps_resolveIn {σ ε : Type} (hknown : none ∉ known) (i : Nat) (layout : Option Layout) (pos : Pos) :
    Keeps (fun s : RunState σ => s.pipeline.Informed known) (Run.resolveIn i layout pos : Run σ ε Bool) := by
  intro s h
  unfold Run.resolveIn
  split
  · exact h
  · rename_i u hu
    have hi : i < known.length := h.length_eq ▸ (List.getElem?_eq_some_iff.1 hu).1
    have hk : known[i]? = some known[i] := List.getElem?_eq_getElem hi
    obtain ⟨names, hnames⟩ := Option.ne_none_iff_exists'.1 fun hnone : known[i] = none =>
      hknown (hnone ▸ List.getElem_mem hi)
    rw [hnames] at hk
    obtain ⟨haccesses, hlooked⟩ := h.unit i u _ hu hk
    obtain ⟨b, tracked, hres, hend⟩ := hlooked.ends_resolve layout pos
    dsimp only
    rw [hres]
    refine h.set hu fun k hk' => ?_
    rw [hk] at hk'
    cases hk'
    exact ⟨haccesses, hend⟩

end Pipeline.Informed

/-! ## All pipelines -/

/-- **How a pipeline comes about, and what its units know.** Proper trees are added whose properties have types without
accesses, and the pipeline is run, in any order. For each unit there is what it knows: nothing until the first run after
it was added, and from then on the names of the properties that were known at that run. -/
inductive Pipeline.History : List (Option (List String)) → Pipeline → Prop
  | empty (options : PipelineOptions) : History [] { options }
  | add {known : List (Option (List String))} {p p' : Pipeline} {name : String} {t t' : Tree} {r : Lowered}
      (h : History known p) (hp : t.Proper)
      (hty : ∀ p d, t.kind? p = some (.property d) → ∀ x, t.Reaches d.ty x → t.member? x = none)
      (hlower : lower p.options.lowering t = .ok r t') (hadd : p.addUnit name t = .ok p') : History (known ++ [none]) p'
  | putAside {known : List (Option (List String))} {p p' : Pipeline} {name : String} {t t' : Tree} {e : LowerError}
      (h : History known p) (hlower : lower p.options.lowering t = .error (.failed e) t')
      (hadd : p.addUnit name t = .ok p') : History known p'
  | run {known : List (Option (List String))} {p : Pipeline} {σ ε : Type} (h : History known p)
      (compiler : Compiler σ ε) (c : σ) :
      History (known.map (handed p.properties)) (stateOf (Pipeline.run compiler ⟨p, c⟩)).pipeline

theorem Pipeline.History.informed {known : List (Option (List String))} {p : Pipeline} (h : History known p) :
    p.Informed known := by
  induction h with
  | empty options =>
    refine ⟨rfl, fun i u k hu => ?_, fun _ hmem => absurd hmem List.not_mem_nil⟩
    cases hu
  | add _ hp hty hlower hadd ih =>
    unfold Pipeline.addUnit at hadd
    rw [hlower] at hadd
    cases hadd
    exact ih.add ⟨rfl, .of_lower hp hty hlower⟩ fun name hname => mem_insertNames.2 (.inl hname)
  | putAside _ hlower hadd ih =>
    unfold Pipeline.addUnit at hadd
    rw [hlower] at hadd
    cases hadd
    exact ⟨ih.length_eq, ih.unit, ih.subset⟩
  | @run known p _ _ _ compiler c ih =>
    have hknown : none ∉ known.map (handed p.properties) := fun hmem => by
      obtain ⟨k, -, hk⟩ := List.mem_map.1 hmem
      cases hk
    exact Keeps.run (Pipeline.Informed.keeps_resolveIn hknown) ih.track

variable {σ ε : Type} {compiler : Compiler σ ε} {known : List (Option (List String))} {p : Pipeline}

theorem Run.Rounds.round_ne_zero {s s' : RunState σ} {round left : Nat} (h : Rounds compiler s round left s') :
    round ≠ 0 := by
  cases h <;> exact Nat.succ_ne_zero _

/-! ## A unit that is older than the property it reads -/

/-- Whether the types of the properties hold no accesses. -/
def hasPlainTypes (t : Tree) : Bool :=
  t.ids.all fun p =>
    match t.kind? p with
    | some (.property d) => (t.descendants d.ty).all (fun x => (t.member? x).isNone)
    | _ => true

theorem member?_of_hasPlainTypes (hp : t.Proper) (h : hasPlainTypes t = true) :
    ∀ p d, t.kind? p = some (.property d) → ∀ x, t.Reaches d.ty x → t.member? x = none := by
  intro p d hd x hx
  have hall := List.all_eq_true.1 h p (Tree.mem_ids_of_contains (Tree.contains_of_kind? hd))
  rw [hd] at hall
  have hty : t.contains d.ty = true := by
    refine hp.contained p d.ty ?_
    rw [Tree.children_of_kind? hd]
    exact mem_children_of_mem_doomed List.mem_cons_self
  exact Option.isNone_iff_eq_none.1 (List.all_eq_true.1 hall x ((hp.forest.mem_descendants hty).2 hx))

/-- A compiler that never complains. -/
def Compiler.content : Compiler Unit Empty := fun _ => return .ok []

/-- The tree of `class Reader { { this.count; } }`. -/
def reader : Tree :=
  { root := ⟨0⟩
    cells := #[
      some ⟨none, .synthetic, .unit { types := [⟨1⟩] }⟩,
      some ⟨some ⟨0⟩, .span ⟨⟨1, 1⟩, ⟨1, 34⟩⟩,
        .classDecl { name := .placed ⟨1, 7⟩ "Reader", lbrace := .point ⟨1, 14⟩, members := [⟨2⟩] }⟩,
      some ⟨some ⟨1⟩, .span ⟨⟨1, 16⟩, ⟨1, 31⟩⟩, .initializer false ⟨3⟩⟩,
      some ⟨some ⟨2⟩, .span ⟨⟨1, 16⟩, ⟨1, 31⟩⟩, .block [⟨4⟩]⟩,
      some ⟨some ⟨3⟩, .span ⟨⟨1, 18⟩, ⟨1, 29⟩⟩, .exprStmt ⟨5⟩⟩,
      some ⟨some ⟨4⟩, .span ⟨⟨1, 18⟩, ⟨1, 28⟩⟩, .fieldAccess ⟨6⟩ (.placed ⟨1, 23⟩ "count")⟩,
      some ⟨some ⟨5⟩, .span ⟨⟨1, 18⟩, ⟨1, 22⟩⟩, .thisExpr⟩] }

/-- A unit with an access is added and run, and then a unit that declares the property. -/
theorem Pipeline.History.exists_reader : ∃ p t', History [some [], none] p ∧ p.properties = ["count"] ∧
    p.units = [{ name := "Reader.java", tracked := ⟨reader, {}⟩ },
      { name := "Counter.java", tracked := { tree := t' }, accesses := accesses counter }] := by
  have hreader : lower {} reader = .ok { accesses := [⟨5⟩] } reader := rfl
  have hadded : History [none]
      { units := [{ name := "Reader.java", tracked := { tree := reader }, accesses := [⟨5⟩] }] } :=
    .add (.empty {}) (by decide) (member?_of_hasPlainTypes (by decide) (by decide)) hreader rfl
  have hran : History [some []] { units := [{ name := "Reader.java", tracked := ⟨reader, {}⟩ }] } :=
    hadded.run Compiler.content ()
  obtain ⟨r, t', hlower⟩ := exists_lower_counter
  have hin := fun p hprop => exists_holdsMember_of_lower (p := p) proper_counter hlower hprop
  obtain ⟨t₀, done, -, -, -, hnames, -, haccesses⟩ :=
    (ends_lower proper_counter apart_counter apart_counter.plainTypes hin).of_eq hlower
  have hnames : r.properties = ["count"] := hnames.trans (by decide)
  have hadd :
      { units := [{ name := "Reader.java", tracked := ⟨reader, {}⟩ }] : Pipeline }.addUnit "Counter.java" counter =
        .ok { units := [{ name := "Reader.java", tracked := ⟨reader, {}⟩ },
                { name := "Counter.java", tracked := { tree := t' }, accesses := accesses counter }]
              properties := ["count"] } := by
    unfold Pipeline.addUnit
    rw [hlower]
    dsimp only
    rw [haccesses, hnames]
    rfl
  exact ⟨_, t', hran.add proper_counter (member?_of_hasPlainTypes proper_counter (by decide)) hlower hadd, rfl, rfl⟩

/-! ## What is looked after -/

/-- **When a run first calls the compiler, each unit looks after all accesses to the names that were known at the first
run after it was added, and after no others.** For a unit that was added since the last run these are all the names that
the pipeline knows; for an older one those among them that were not declared later only. -/
theorem pending_eq_known (h : Pipeline.History known p) {c : σ} {left : Nat} {s : RunState σ}
    (hround : Run.Rounds compiler ⟨p, c⟩ 1 left s) : known.length = s.pipeline.units.length ∧
      ∀ (i : Nat) (u : PipelineUnit) (k : Option (List String)), s.pipeline.units[i]? = some u → known[i]? = some k →
        u.tracked.resolver.pending.Nodup ∧
        (∀ x, x ∈ u.tracked.resolver.pending ↔ u.tree.Reaches u.tree.root x ∧
          ∃ name ∈ k.getD s.pipeline.properties, u.tree.member? x = some name) ∧
        ∀ name ∈ k.getD s.pipeline.properties, name ∈ s.pipeline.properties := by
  have hs : s = ⟨p.track, c⟩ := by
    cases hround with
    | first => rfl
    | next h => exact absurd rfl h.round_ne_zero
  subst hs
  have htrack := h.informed.track
  refine ⟨by rw [← htrack.length_eq, List.length_map], fun i u k hu hk => ?_⟩
  have hk' : (known.map (handed p.properties))[i]? = some (some (k.getD p.properties)) := by
    rw [List.getElem?_map, hk]
    rfl
  obtain ⟨-, hlooked⟩ := htrack.unit i u _ hu hk'
  exact ⟨hlooked.complete.nodup, fun x => hlooked.mem_pending_iff, htrack.subset _ (List.mem_of_getElem? hk')⟩

/-- The reader looks after no access, and the unit that was added after the run after all its accesses
to the property. -/
theorem pending_eq_known_reader : ∃ (p : Pipeline) (s : RunState Unit) (u v : PipelineUnit),
    Pipeline.History [some [], none] p ∧ Run.Rounds Compiler.content ⟨p, ()⟩ 1 p.options.maxRounds s ∧
      s.pipeline.units = [u, v] ∧ s.pipeline.properties = ["count"] ∧ u.tracked.resolver.pending = [] ∧
      ∀ x, x ∈ v.tracked.resolver.pending ↔
        v.tree.Reaches v.tree.root x ∧ ∃ name ∈ ["count"], v.tree.member? x = some name := by
  obtain ⟨p, t', h, hproperties, hunits⟩ := Pipeline.History.exists_reader
  have hround : Run.Rounds Compiler.content ⟨p, ()⟩ 1 p.options.maxRounds ⟨p.track, ()⟩ := .first
  obtain ⟨hlength, hunit⟩ := pending_eq_known h hround
  obtain ⟨u, v, huv⟩ := List.length_eq_two.1 hlength.symm
  have hu := hunit 0 u (some []) (by rw [huv]; rfl) rfl
  have hv := hunit 1 v none (by rw [huv]; rfl) rfl
  have hproperties : p.track.properties = ["count"] := hproperties
  rw [Option.getD_none, hproperties] at hv
  refine ⟨p, _, u, v, h, hround, huv, hproperties, ?_, hv.2.1⟩
  refine List.eq_nil_iff_forall_not_mem.2 fun x hx => ?_
  obtain ⟨-, name, hname, -⟩ := (hu.2.1 x).1 hx
  cases hname

/-- The access of the reader is not looked after, for its property came too late. -/
theorem exists_access_not_pending :
    ∃ (known : List (Option (List String))) (p : Pipeline) (u : PipelineUnit) (x : NodeId),
    Pipeline.History known p ∧ Run.Rounds Compiler.content ⟨p, ()⟩ 1 p.options.maxRounds ⟨p.track, ()⟩ ∧
      u ∈ p.track.units ∧ u.tree.Reaches u.tree.root x ∧ u.tree.member? x = some "count" ∧
      "count" ∈ p.track.properties ∧ x ∉ u.tracked.resolver.pending := by
  obtain ⟨p, t', h, hproperties, hunits⟩ := Pipeline.History.exists_reader
  have hproper : reader.Proper := by decide
  refine ⟨_, p, { name := "Reader.java", tracked := ⟨reader, {}⟩ }, ⟨5⟩, h, .first, ?_,
    hproper.reaches_iff_contains.2 (by decide), rfl, ?_, List.not_mem_nil⟩
  · unfold Pipeline.track
    rw [hunits]
    exact List.mem_cons_self
  · show "count" ∈ p.properties
    rw [hproperties]
    exact List.mem_cons_self

end UniformAccess
