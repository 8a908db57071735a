import UniformAccess.Proofs.Pipeline.Made
/-!
# What a run reports

A run calls the compiler once a round. What it reports in the end is what the compiler was given the last time and what
it said to that. To speak of the calls, the compiler is made to write them down (`Compiler.recording`), which changes
nothing about the run.
-/
namespace UniformAccess

variable {σ ε : Type}

/-- A call of the compiler: what it was given, and what it answered. -/
abbrev Call (ε : Type) := List Source × Except ε (List Diagnostic)

/-- The compiler that writes down how it is called. -/
def Compiler.recording (compiler : Compiler σ ε) : Compiler (σ × List (Call ε)) ε := fun sources s =>
  ((compiler sources s.1).1, (compiler sources s.1).2, s.2 ++ [(sources, (compiler sources s.1).1)])

theorem Compiler.recording_of_ok {compiler : Compiler σ ε} {sources : List Source} {c c' : σ} {ds : List Diagnostic}
    (hc : compiler sources c = (.ok ds, c')) (calls : List (Call ε)) :
    compiler.recording sources (c, calls) = (.ok ds, c', calls ++ [(sources, .ok ds)]) := by
  unfold recording
  rw [hc]

namespace Run

variable {compiler : Compiler σ ε} {s s' : RunState σ} {round left : Nat} {outcome : Outcome}

/-- **The pipeline that a run leaves is the one whose sources it reports.** -/
theorem Runs.frame (h : Runs compiler round left s outcome s') : s'.pipeline.sources = outcome.sources ∧
    s'.pipeline.options = s.pipeline.options ∧ s'.pipeline.properties = s.pipeline.properties := by
  induction h with
  | content => exact ⟨rfl, rfl, rfl⟩
  | last => exact ⟨rfl, rfl, rfl⟩
  | stuck _ _ h hlen =>
    rw [(h.eq_of_length_eq hlen).2]
    exact ⟨rfl, rfl, rfl⟩
  | next _ _ h _ _ ih =>
    obtain ⟨hsources, hoptions, hproperties⟩ := ih
    obtain ⟨ho, -, hp⟩ := h.frame
    exact ⟨hsources, hoptions.trans ho, hproperties.trans hp⟩

/-- **The calls of the rounds that are left.** There is one a round, and the outcome tells the last one. -/
theorem Runs.recorded (h : Runs compiler round left s outcome s') : ∀ before : List (Call ε), ∃ calls,
    Runs compiler.recording round left ⟨s.pipeline, s.compiler, before⟩ outcome
      ⟨s'.pipeline, s'.compiler, before ++ calls⟩ ∧
    outcome.rounds + 1 = round + calls.length ∧ calls.length ≤ left + 1 ∧
    calls.getLast? = some (outcome.sources, .ok outcome.unresolved) := by
  induction h with
  | @content _ _ p _ _ hc =>
    exact fun before => ⟨[(p.sources, .ok [])], .content (Compiler.recording_of_ok hc before), rfl, by simp, rfl⟩
  | @last _ p _ _ ds hc =>
    exact fun before => ⟨[(p.sources, .ok ds)], .last (Compiler.recording_of_ok hc before), rfl, by simp, rfl⟩
  | @stuck _ _ p _ _ _ ds us hc hne h hlen =>
    intro before
    refine ⟨[(p.sources, .ok ds)], .stuck (Compiler.recording_of_ok hc before) hne h hlen, rfl, by simp, ?_⟩
    rw [(h.eq_of_length_eq hlen).1]
    rfl
  | @next _ _ p _ _ _ ds _ _ _ hc hne h hlen _ ih =>
    intro before
    obtain ⟨calls, hrest, hcount, hle, hlast⟩ := ih (before ++ [(p.sources, .ok ds)])
    rw [List.append_assoc] at hrest
    refine ⟨(p.sources, .ok ds) :: calls, .next (Compiler.recording_of_ok hc before) hne h hlen hrest, ?_, ?_, ?_⟩
    · rw [List.length_cons]
      omega
    · rw [List.length_cons]
      omega
    · rw [List.getLast?_cons, hlast]
      rfl

end Run

variable {compiler : Compiler σ ε} {S : Tree → Prop} {names : List String} {p : Pipeline} {c : σ} {s' : RunState σ}
  {outcome : Outcome}

/-- **The outcome is what the compiler last saw and said.**

When a run ends, the number of rounds is the number of calls of the compiler, at most one more than the rounds that may
be resolved. The sources are those of the last call: the prints of all units as the run leaves them, and the observer
unit if it is wanted and some property was lowered. The unresolved complaints are the answer to that call. -/
theorem run_reports_last_call (hmade : Made S names p) (hrun : Pipeline.run compiler ⟨p, c⟩ = .ok outcome s') :
    ∃ calls, Pipeline.run compiler.recording ⟨p, c, []⟩ = .ok outcome ⟨s'.pipeline, s'.compiler, calls⟩ ∧
      outcome.rounds = calls.length ∧ outcome.rounds ≤ p.options.maxRounds + 1 ∧
      calls.getLast? = some (outcome.sources, .ok outcome.unresolved) ∧
      outcome.sources = s'.pipeline.units.map (fun u => ⟨u.name, u.tree.print.text⟩) ++
        if p.options.emitObserver = true ∧ names ≠ [] then
          [⟨p.options.lowering.observerUnitName, p.options.lowering.observerUnitText⟩]
        else [] := by
  have hruns := Run.run_eq_ok_iff.1 hrun
  obtain ⟨calls, hrec, hcount, hle, hlast⟩ := hruns.recorded []
  obtain ⟨hsources, hoptions, hproperties⟩ := hruns.frame
  have hoptions : s'.pipeline.options = p.options := hoptions
  have hproperties : s'.pipeline.properties = p.properties := hproperties
  refine ⟨calls, Run.run_eq_ok_iff.2 hrec, by omega, ?_, hlast, ?_⟩
  · have : calls.length ≤ p.options.maxRounds + 1 := hle
    omega
  · rw [← hsources]
    unfold Pipeline.sources Pipeline.observerSource
    rw [hoptions, hproperties, hmade.properties_isEmpty]
    simp

/-- A compiler that complains about a unit of its own, and counts its calls. -/
def Compiler.elsewhere : Compiler Nat Empty := fun _ n => (.ok [⟨"Other.java", ⟨1, 1⟩, "no such name"⟩], n + 1)

/-- Over a unit with a property this compiler is called once, given the unit and the observer unit, and its complaint is
left. -/
theorem run_reports_last_call_counter : ∃ p outcome s' calls, Made Tree.Proper ["count"] p ∧
    Pipeline.run Compiler.elsewhere ⟨p, 0⟩ = .ok outcome s' ∧
    Pipeline.run Compiler.elsewhere.recording ⟨p, 0, []⟩ = .ok outcome ⟨s'.pipeline, s'.compiler, calls⟩ ∧
    calls.length = 1 ∧ calls.getLast? = some (outcome.sources, .ok [⟨"Other.java", ⟨1, 1⟩, "no such name"⟩]) ∧
    outcome.sources = s'.pipeline.units.map (fun u => ⟨u.name, u.tree.print.text⟩) ++
      [⟨p.options.lowering.observerUnitName, p.options.lowering.observerUnitText⟩] := by
  obtain ⟨p, r, t', hmade, -, -, hp⟩ := Made.exists_counter
  have hother : p.track.units.findIdx? (·.name == "Other.java") = none := by
    rw [hp]
    rfl
  have hrun : Pipeline.run Compiler.elsewhere ⟨p, 0⟩ = .ok ⟨p.track.sources, _, _, 1⟩ _ := Run.run_eq_ok_iff.2 (by
    rw [show p.options.maxRounds = 16 by rw [hp]]
    exact .stuck rfl (by simp) (.cons (.stranger hother) .nil) rfl)
  obtain ⟨calls, hrec, hcount, -, hlast, hsources⟩ := run_reports_last_call hmade hrun
  refine ⟨p, _, _, calls, hmade, hrun, hrec, hcount.symm, hlast, ?_⟩
  rw [hsources, if_pos ⟨by rw [hp], by simp⟩]

end UniformAccess
