import UniformAccess.Proofs.Pipeline.Made
import UniformAccess.Proofs.Resolution.Work
/-!
# How many rounds a run takes

Every round but the last resolves an access, and so there is less work left after it. A run therefore takes at most one
round more than there is work. That is the number of accesses, if no compound assignment copies a scope with accesses in
it, and it can be more otherwise.
-/
namespace UniformAccess

open Resolution (Resolves ends_resolve)

namespace Pipeline

variable {p : Pipeline} {i : Nat} {u u' : PipelineUnit}

/-- The work of the accesses of all units. -/
def work (p : Pipeline) : Nat := (p.units.map (·.tracked.work)).sum

/-- How many accesses are looked after. -/
def pendingCount (p : Pipeline) : Nat := (p.units.map (·.tracked.resolver.pending.length)).sum

def Sound (p : Pipeline) : Prop := ∀ u ∈ p.units, u.tracked.Sound

/-- A unit changes the work by its own. -/
theorem work_set (hu : p.units[i]? = some u) :
    { p with units := p.units.set i u' }.work + u.tracked.work = p.work + u'.tracked.work := by
  obtain ⟨hi, rfl⟩ := List.getElem?_eq_some_iff.1 hu
  have hset : ∀ v : PipelineUnit, ((p.units.set i v).map (·.tracked.work)).sum =
      ((p.units.map (·.tracked.work)).take i).sum + v.tracked.work +
        ((p.units.map (·.tracked.work)).drop (i + 1)).sum :=
    fun v => by rw [List.map_set, List.sum_set, List.length_map, if_pos hi]
  have hself := hset p.units[i]
  rw [List.set_getElem_self] at hself
  unfold work
  rw [hself, hset]
  omega

theorem Sound.set (hp : p.Sound) (hu' : u'.tracked.Sound) : { p with units := p.units.set i u' }.Sound := fun v hv => by
  rcases List.mem_or_eq_of_mem_set hv with hv | rfl
  · exact hp v hv
  · exact hu'

theorem Sound.track (hp : p.Sound) : p.track.Sound := fun v hv => by
  obtain ⟨u, hu, rfl⟩ := List.mem_map.1 hv
  split
  · exact hp u hu
  · exact .ofAccesses (hp u hu).proper u.accesses p.properties

end Pipeline

/-! ## Complaints -/

section

variable {layouts : List Layout} {d : Diagnostic} {ds us : List Diagnostic} {b : Bool} {p p' : Pipeline}

/-- **A complaint leaves less work if it resolves an access**, and no more in any case. -/
theorem Attended.sound (hp : p.Sound) (h : Attended layouts d p b p') :
    p'.Sound ∧ p'.work ≤ p.work ∧ (b = true → p'.work < p.work) := by
  cases h with
  | stranger => exact ⟨hp, Nat.le_refl _, fun hb => by cases hb⟩
  | @unit i u b tracked _ hu h =>
    have hs := hp u (List.mem_of_getElem? hu)
    have hset : { p with units := p.units.set i { u with tracked } }.work + u.tracked.work = p.work + tracked.work :=
      Pipeline.work_set hu
    rcases (ends_resolve hs.proper _ _).of_eq h with ⟨rfl, rfl, -⟩ | ⟨rfl, id, node, scope, member, found, hr⟩
    · exact ⟨hp.set hs, by omega, fun hb => by cases hb⟩
    · have hlt := hr.work_lt hs
      exact ⟨hp.set (hr.sound hs), by omega, fun _ => by omega⟩

theorem Attended.exists_of_sound (layouts : List Layout) (d : Diagnostic) (hp : p.Sound) :
    ∃ b p', Attended layouts d p b p' := by
  cases hi : p.units.findIdx? (·.name == d.unit) with
  | none => exact ⟨false, p, .stranger hi⟩
  | some i =>
    obtain ⟨hlt, -, -⟩ := List.findIdx?_eq_some_iff_getElem.1 hi
    have hu : p.units[i]? = some p.units[i] := List.getElem?_eq_getElem hlt
    obtain ⟨b, tracked, hres, -⟩ := ends_resolve (hp _ (List.mem_of_getElem? hu)).proper layouts[i]? d.pos
    exact ⟨b, _, .unit hi hu hres⟩

namespace AttendedAll

/-- **A round that resolves something leaves less work.** -/
theorem sound (h : AttendedAll layouts p ds us p') (hp : p.Sound) :
    p'.Sound ∧ p'.work ≤ p.work ∧ (us.length ≠ ds.length → p'.work < p.work) := by
  induction h with
  | nil => exact ⟨hp, Nat.le_refl _, fun h => absurd rfl h⟩
  | @cons p p₁ p₂ d b ds us hd hrest ih =>
    obtain ⟨hp₁, hle₁, hlt₁⟩ := hd.sound hp
    obtain ⟨hp₂, hle₂, hlt₂⟩ := ih hp₁
    refine ⟨hp₂, by omega, fun hlen => ?_⟩
    cases b with
    | true => exact Nat.lt_of_le_of_lt hle₂ (hlt₁ rfl)
    | false => exact Nat.lt_of_lt_of_le (hlt₂ fun hus => hlen (congrArg (· + 1) hus)) hle₁

theorem exists_of_sound (layouts : List Layout) : ∀ (ds : List Diagnostic) {p : Pipeline}, p.Sound →
    ∃ us p', AttendedAll layouts p ds us p'
  | [], p, _ => ⟨[], p, .nil⟩
  | d :: ds, p, hp => by
    obtain ⟨b, p₁, hd⟩ := Attended.exists_of_sound layouts d hp
    obtain ⟨us, p₂, hrest⟩ := exists_of_sound layouts ds (hd.sound hp).1
    exact ⟨_, p₂, .cons hd hrest⟩

end AttendedAll

end

/-! ## Rounds -/

variable {σ ε : Type} {compiler : Compiler σ ε}

/-- **The rounds that are left are at most as many as the work, and one.** -/
theorem Run.exists_runs (hcompiler : ∀ sources c, ∃ ds c', compiler sources c = (.ok ds, c')) : ∀ (left round : Nat)
    {p : Pipeline} (c : σ), p.Sound →
    ∃ outcome s', Runs compiler round left ⟨p, c⟩ outcome s' ∧ outcome.rounds ≤ round + p.work
  | 0, round, p, c, _ => by
    obtain ⟨ds, c', hc⟩ := hcompiler p.sources c
    exact ⟨_, _, .last hc, Nat.le_add_right _ _⟩
  | left + 1, round, p, c, hp => by
    obtain ⟨ds, c', hc⟩ := hcompiler p.sources c
    by_cases hds : ds = []
    · subst hds
      exact ⟨_, _, .content hc, Nat.le_add_right _ _⟩
    · obtain ⟨us, p', hall⟩ := AttendedAll.exists_of_sound p.layouts ds hp
      by_cases hlen : us.length = ds.length
      · exact ⟨_, _, .stuck hc hds hall hlen, Nat.le_add_right _ _⟩
      · obtain ⟨hp', -, hlt⟩ := hall.sound hp
        obtain ⟨outcome, s', hruns, hle⟩ := exists_runs hcompiler left (round + 1) c' hp'
        have := hlt hlen
        exact ⟨outcome, s', .next hc hds hall hlen hruns, by omega⟩

theorem Made.sound {names : List String} {p : Pipeline} (h : Made Tree.Proper names p) : p.Sound := by
  induction h with
  | empty => exact fun _ hu => absurd hu List.not_mem_nil
  | @add _ p _ _ _ t' _ _ hlower hS hadd ih =>
    unfold Pipeline.addUnit at hadd
    rw [hlower] at hadd
    cases hadd
    intro u hu
    rcases List.mem_append.1 hu with hu | hu
    · exact ih u hu
    · rw [List.mem_singleton.1 hu]
      exact ⟨hS, fun _ hx => absurd hx List.not_mem_nil, fun _ hx => absurd hx List.not_mem_nil⟩
  | putAside _ hlower hadd ih =>
    unfold Pipeline.addUnit at hadd
    rw [hlower] at hadd
    cases hadd
    exact ih
  | run _ compiler c ih =>
    refine Keeps.run (fun i layout pos s hs => ?_) ih.track
    unfold Run.resolveIn
    split
    · exact hs
    · rename_i u hu
      have hsu := hs u (List.mem_of_getElem? hu)
      obtain ⟨b, tracked, hres, hend⟩ := ends_resolve hsu.proper layout pos
      dsimp only
      rw [hres]
      refine Pipeline.Sound.set hs ?_
      rcases hend with ⟨-, rfl, -⟩ | ⟨-, id, node, scope, member, found, hr⟩
      · exact hsu
      · exact hr.sound hsu

/-- **A run takes at most one round more than there is work**, and always ends if the compiler never fails.

If no access that is looked after and that a compound assignment assigns to has another access to a property in its
scope, the work is the number of accesses that are looked after. -/
theorem rounds_le_work {names : List String} {p : Pipeline} (hmade : Made Tree.Proper names p)
    (hcompiler : ∀ sources c, ∃ ds c', compiler sources c = (.ok ds, c')) (c : σ) : ∃ outcome s',
      Pipeline.run compiler ⟨p, c⟩ = .ok outcome s' ∧ outcome.rounds ≤ p.track.work + 1 ∧
      ((∀ u ∈ p.track.units, ∀ x ∈ u.tracked.resolver.pending, u.tree.isCombined x = true →
          ∀ scope, u.tree.scope? x = some scope → ∀ y, u.tree.Reaches scope y →
            u.tracked.resolver.tracks u.tree y = false) →
        outcome.rounds ≤ p.track.pendingCount + 1) := by
  have hsound := hmade.sound.track
  obtain ⟨outcome, s', hruns, hle⟩ := Run.exists_runs hcompiler p.options.maxRounds 1 c hsound
  refine ⟨outcome, s', Run.run_eq_ok_iff.2 hruns, by omega, fun hplain => ?_⟩
  have hwork : p.track.work = p.track.pendingCount :=
    congrArg List.sum (List.map_congr_left fun u hu => Tracked.work_eq_length (hsound u hu).proper (hplain u hu))
  omega

/-- A compiler that complains about the same place in every round. -/
def Compiler.stubborn : Compiler Nat Empty := fun _ n => (.ok [⟨"Counter.java", ⟨1, 48⟩, "no such name"⟩], n + 1)

theorem rounds_le_work_counter : ∃ p outcome s', Made Tree.Proper ["count"] p ∧ p.units ≠ [] ∧
    Pipeline.run Compiler.stubborn ⟨p, 0⟩ = .ok outcome s' ∧ outcome.rounds ≤ p.track.work + 1 := by
  obtain ⟨p, _, _, hmade, -, -, hp⟩ := Made.exists_counter
  have hok : ∀ sources c, ∃ ds c', Compiler.stubborn sources c = (.ok ds, c') := fun _ _ => ⟨_, _, rfl⟩
  obtain ⟨outcome, s', hrun, hle, -⟩ := rounds_le_work hmade hok 0
  exact ⟨p, outcome, s', hmade, by rw [hp]; simp, hrun, hle⟩

end UniformAccess
