import UniformAccess.Pipeline.Run
import UniformAccess.Proofs.Resolution.Run
/-!
# What a round does

A run is a row of rounds, and a round a row of complaints. `Attended` says what one complaint can do to a pipeline,
`AttendedAll` what those of a round do, and `Runs` how rounds follow each other until the run ends. Each is what the
program computes (`resolve_eq_ok_iff`, `resolveAll_eq_ok_iff`, `rounds_eq_ok_iff`), without the state of the compiler
where it plays no part.
-/
namespace UniformAccess

/-! ## One complaint -/

/-- **A complaint that resolves nothing changes nothing.** -/
theorem Resolution.eq_of_resolve_eq_false {s s' : Tracked} {layout : Option Layout} {p : Pos}
    (h : resolve layout p s = .ok false s') : s' = s := by
  unfold resolve at h
  obtain ⟨_, _, hget, h⟩ := bind_eq_ok.1 h
  cases hget
  cases hfind : s.resolver.find? s.tree layout p with
  | none =>
    rw [hfind] at h
    cases h
    rfl
  | some id =>
    obtain ⟨⟨parent, loc, kind⟩, scope, member, hnode, rfl⟩ := exists_of_find? hfind
    rw [hfind] at h
    obtain ⟨_, _, hset, h⟩ := bind_eq_ok.1 h
    cases hset
    rw [hnode] at h
    obtain ⟨_, _, -, h⟩ := bind_eq_ok.1 h
    cases h

variable {layouts : List Layout} {d : Diagnostic} {ds us : List Diagnostic} {b : Bool} {p p' : Pipeline}

/-- **What a complaint does to a pipeline.** It names no unit, or it is for the resolver of the first unit that it
names; the answer tells whether an access was resolved. -/
inductive Attended (layouts : List Layout) (d : Diagnostic) (p : Pipeline) : Bool → Pipeline → Prop
  | stranger (hi : p.units.findIdx? (·.name == d.unit) = none) : Attended layouts d p false p
  | unit {i : Nat} {u : PipelineUnit} {b : Bool} {tracked : Tracked}
      (hi : p.units.findIdx? (·.name == d.unit) = some i) (hu : p.units[i]? = some u)
      (h : Resolution.resolve layouts[i]? d.pos u.tracked = .ok b tracked) :
      Attended layouts d p b { p with units := p.units.set i { u with tracked } }

/-- **What the complaints of a round do, one after the other.** The second list holds those that nothing was done
about. -/
inductive AttendedAll (layouts : List Layout) : Pipeline → List Diagnostic → List Diagnostic → Pipeline → Prop
  | nil {p : Pipeline} : AttendedAll layouts p [] [] p
  | cons {p p₁ p₂ : Pipeline} {d : Diagnostic} {b : Bool} {ds us : List Diagnostic} (h : Attended layouts d p b p₁)
      (hrest : AttendedAll layouts p₁ ds us p₂) : AttendedAll layouts p (d :: ds) (if b then us else d :: us) p₂

theorem Attended.eq_of_false (h : Attended layouts d p false p') : p' = p := by
  cases h with
  | stranger => rfl
  | @unit i u _ tracked _ hu h =>
    rw [Resolution.eq_of_resolve_eq_false h]
    obtain ⟨hi, rfl⟩ := List.getElem?_eq_some_iff.1 hu
    rw [List.set_getElem_self]

/-- **Complaints change units, and nothing else about a pipeline.** -/
theorem Attended.frame (h : Attended layouts d p b p') :
    p'.options = p.options ∧ p'.failed = p.failed ∧ p'.properties = p.properties := by
  cases h <;> exact ⟨rfl, rfl, rfl⟩

namespace AttendedAll

theorem frame (h : AttendedAll layouts p ds us p') :
    p'.options = p.options ∧ p'.failed = p.failed ∧ p'.properties = p.properties := by
  induction h with
  | nil => exact ⟨rfl, rfl, rfl⟩
  | cons h _ ih =>
    obtain ⟨ho, hf, hp⟩ := h.frame
    exact ⟨ih.1.trans ho, ih.2.1.trans hf, ih.2.2.trans hp⟩

theorem sublist (h : AttendedAll layouts p ds us p') : us.Sublist ds := by
  induction h with
  | nil => exact .slnil
  | @cons _ _ _ d b _ _ _ _ ih =>
    cases b with
    | true => exact ih.cons d
    | false => exact ih.cons_cons d

/-- **A round without progress changes nothing**: every complaint is left, and the pipeline is as it was. -/
theorem eq_of_length_eq (h : AttendedAll layouts p ds us p') (hlen : us.length = ds.length) : us = ds ∧ p' = p := by
  refine ⟨h.sublist.eq_of_length hlen, ?_⟩
  induction h with
  | nil => rfl
  | @cons _ _ _ d b _ _ hd hrest ih =>
    cases b with
    | true =>
      have := hrest.sublist.length_le
      rw [if_pos rfl, List.length_cons] at hlen
      omega
    | false => rw [ih (Nat.succ.inj hlen), hd.eq_of_false]

end AttendedAll

namespace Run

variable {σ ε : Type} {compiler : Compiler σ ε} {s s' : RunState σ} {round left : Nat} {outcome : Outcome}

theorem resolve_eq_ok_iff : (resolve layouts d : Run σ ε Bool) s = .ok b s' ↔
    s'.compiler = s.compiler ∧ Attended layouts d s.pipeline b s'.pipeline := by
  rcases s with ⟨p, c⟩
  rcases s' with ⟨p', c'⟩
  cases hi : p.units.findIdx? (·.name == d.unit) with
  | none =>
    have hget : (resolve layouts d : Run σ ε Bool) ⟨p, c⟩ = .ok false ⟨p, c⟩ := by
      refine (bind_of_ok rfl).trans ?_
      dsimp only
      rw [hi]
      rfl
    rw [hget]
    constructor
    · intro h
      cases h
      exact ⟨rfl, .stranger hi⟩
    · rintro ⟨hc, h⟩
      cases hc
      cases h with
      | stranger => rfl
      | unit hi' => rw [hi] at hi'; cases hi'
  | some i =>
    obtain ⟨hlt, -, -⟩ := List.findIdx?_eq_some_iff_getElem.1 hi
    have hu : p.units[i]? = some p.units[i] := List.getElem?_eq_getElem hlt
    have hget : (resolve layouts d : Run σ ε Bool) ⟨p, c⟩ = resolveIn i layouts[i]? d.pos ⟨p, c⟩ := by
      refine (bind_of_ok rfl).trans ?_
      dsimp only
      rw [hi]
    rw [hget]
    unfold resolveIn
    simp only [hu]
    constructor
    · intro h
      cases hres : Resolution.resolve layouts[i]? d.pos p.units[i].tracked with
      | ok b' tracked =>
        rw [hres] at h
        cases h
        exact ⟨rfl, .unit hi hu hres⟩
      | error e tracked =>
        rw [hres] at h
        cases e <;> cases h
    · rintro ⟨hc, h⟩
      cases hc
      cases h with
      | stranger hi' => rw [hi] at hi'; cases hi'
      | unit hi' hu' hres =>
        cases hi.symm.trans hi'
        cases hu.symm.trans hu'
        rw [hres]

theorem resolveAll_eq_ok_iff : ∀ {ds us : List Diagnostic} {s : RunState σ},
    (resolveAll layouts ds : Run σ ε (List Diagnostic)) s = .ok us s' ↔
      s'.compiler = s.compiler ∧ AttendedAll layouts s.pipeline ds us s'.pipeline
  | [], us, s => by
    unfold resolveAll
    constructor
    · intro h
      cases h
      exact ⟨rfl, .nil⟩
    · rcases s with ⟨p, c⟩
      rcases s' with ⟨p', c'⟩
      rintro ⟨rfl, h⟩
      cases h
      rfl
  | d :: ds, us, s => by
    unfold resolveAll
    constructor
    · intro h
      obtain ⟨b, s₁, hd, h⟩ := bind_eq_ok.1 h
      obtain ⟨us', s₂, hds, h⟩ := bind_eq_ok.1 h
      cases h
      obtain ⟨hc₁, hd⟩ := resolve_eq_ok_iff.1 hd
      obtain ⟨hc₂, hds⟩ := resolveAll_eq_ok_iff.1 hds
      exact ⟨hc₂.trans hc₁, .cons hd hds⟩
    · rintro ⟨hc, h⟩
      cases h with
      | @cons _ p₁ _ _ b _ us' hd hds =>
        refine bind_eq_ok.2 ⟨b, ⟨p₁, s.compiler⟩, resolve_eq_ok_iff.2 ⟨rfl, hd⟩, ?_⟩
        exact bind_eq_ok.2 ⟨us', s', resolveAll_eq_ok_iff.2 ⟨hc, hds⟩, rfl⟩

/-! ## Round after round -/

theorem compile_of_ok {sources : List Source} {p : Pipeline} {c c' : σ} (hc : compiler sources c = (.ok ds, c')) :
    compile compiler sources ⟨p, c⟩ = .ok ds ⟨p, c'⟩ := by
  unfold compile
  rw [hc]

theorem exists_of_compile {sources : List Source} {p : Pipeline} {c : σ}
    (h : compile compiler sources ⟨p, c⟩ = .ok ds s') : ∃ c', compiler sources c = (.ok ds, c') ∧ s' = ⟨p, c'⟩ := by
  unfold compile at h
  dsimp only at h
  split at h
  · rename_i hc
    cases h
    exact ⟨_, hc, rfl⟩
  · cases h

/-- **Rounds follow each other until a run ends**: because the compiler is content, because no more rounds are allowed,
or because a round resolves nothing. -/
inductive Runs (compiler : Compiler σ ε) : Nat → Nat → RunState σ → Outcome → RunState σ → Prop
  | content {round left : Nat} {p : Pipeline} {c c' : σ} (hc : compiler p.sources c = (.ok [], c')) :
      Runs compiler round (left + 1) ⟨p, c⟩ ⟨p.sources, [], p.failed, round⟩ ⟨p, c'⟩
  | last {round : Nat} {p : Pipeline} {c c' : σ} {ds : List Diagnostic} (hc : compiler p.sources c = (.ok ds, c')) :
      Runs compiler round 0 ⟨p, c⟩ ⟨p.sources, ds, p.failed, round⟩ ⟨p, c'⟩
  | stuck {round left : Nat} {p p' : Pipeline} {c c' : σ} {ds us : List Diagnostic}
      (hc : compiler p.sources c = (.ok ds, c')) (hne : ds ≠ []) (h : AttendedAll p.layouts p ds us p')
      (hlen : us.length = ds.length) :
      Runs compiler round (left + 1) ⟨p, c⟩ ⟨p.sources, us, p.failed, round⟩ ⟨p', c'⟩
  | next {round left : Nat} {p p' : Pipeline} {c c' : σ} {ds us : List Diagnostic} {outcome : Outcome} {s' : RunState σ}
      (hc : compiler p.sources c = (.ok ds, c')) (hne : ds ≠ []) (h : AttendedAll p.layouts p ds us p')
      (hlen : us.length ≠ ds.length) (hrest : Runs compiler (round + 1) left ⟨p', c'⟩ outcome s') :
      Runs compiler round (left + 1) ⟨p, c⟩ outcome s'

theorem runs_of_rounds : ∀ {left round : Nat} {s : RunState σ},
    rounds compiler round left s = .ok outcome s' → Runs compiler round left s outcome s'
  | 0, round, ⟨p, c⟩, h => by
    unfold rounds at h
    obtain ⟨_, _, hget, h⟩ := bind_eq_ok.1 h
    cases hget
    obtain ⟨ds, s₁, hcompile, h⟩ := bind_eq_ok.1 h
    obtain ⟨c₁, hc, rfl⟩ := exists_of_compile hcompile
    cases h
    exact .last hc
  | left + 1, round, ⟨p, c⟩, h => by
    unfold rounds at h
    obtain ⟨_, _, hget, h⟩ := bind_eq_ok.1 h
    cases hget
    obtain ⟨ds, s₁, hcompile, h⟩ := bind_eq_ok.1 h
    obtain ⟨c₁, hc, rfl⟩ := exists_of_compile hcompile
    by_cases hds : ds = []
    · subst hds
      cases h
      exact .content hc
    · rw [if_neg (by simpa using hds)] at h
      obtain ⟨us, ⟨p₂, c₂⟩, hresolve, h⟩ := bind_eq_ok.1 h
      obtain ⟨hc₂, hall⟩ := resolveAll_eq_ok_iff.1 hresolve
      cases hc₂
      by_cases hlen : us.length = ds.length
      · rw [if_pos hlen] at h
        cases h
        exact .stuck hc hds hall hlen
      · rw [if_neg hlen] at h
        exact .next hc hds hall hlen (runs_of_rounds h)

theorem Runs.rounds_eq (h : Runs compiler round left s outcome s') : rounds compiler round left s = .ok outcome s' := by
  induction h with
  | content hc => exact bind_eq_ok.2 ⟨_, _, rfl, bind_eq_ok.2 ⟨_, _, compile_of_ok hc, rfl⟩⟩
  | last hc => exact bind_eq_ok.2 ⟨_, _, rfl, bind_eq_ok.2 ⟨_, _, compile_of_ok hc, rfl⟩⟩
  | @stuck _ _ p p' _ c' ds us hc hne h hlen =>
    refine bind_eq_ok.2 ⟨_, _, rfl, bind_eq_ok.2 ⟨_, _, compile_of_ok hc, ?_⟩⟩
    rw [if_neg (by simpa using hne)]
    refine bind_eq_ok.2 ⟨us, ⟨p', c'⟩, resolveAll_eq_ok_iff.2 ⟨rfl, h⟩, ?_⟩
    rw [if_pos hlen]
    rfl
  | @next _ _ p p' _ c' ds us _ _ hc hne h hlen _ ih =>
    refine bind_eq_ok.2 ⟨_, _, rfl, bind_eq_ok.2 ⟨_, _, compile_of_ok hc, ?_⟩⟩
    rw [if_neg (by simpa using hne)]
    refine bind_eq_ok.2 ⟨us, ⟨p', c'⟩, resolveAll_eq_ok_iff.2 ⟨rfl, h⟩, ?_⟩
    rw [if_neg hlen]
    exact ih

/-- **The rounds of a run are what the program computes.** -/
theorem rounds_eq_ok_iff : rounds compiler round left s = .ok outcome s' ↔ Runs compiler round left s outcome s' :=
  ⟨runs_of_rounds, Runs.rounds_eq⟩

theorem run_eq_ok_iff : Pipeline.run compiler s = .ok outcome s' ↔
    Runs compiler 1 s.pipeline.options.maxRounds ⟨s.pipeline.track, s.compiler⟩ outcome s' := rounds_eq_ok_iff

end Run

end UniformAccess
