import UniformAccess.Proofs.Pipeline.Round
/-!
# How pipelines come about

A pipeline starts empty; units are added to it, and it is run, any number of times and with any compilers. `Made` says
so, and keeps count of the properties that were lowered on the way. What every complaint leaves true of a pipeline, a
run leaves true of it, whether it ends or stops short (`Keeps.run`).
-/
namespace UniformAccess

/-! ## What a run leaves true -/

namespace Keeps

open Run

variable {σ ε : Type} {P : Pipeline → Prop} {compiler : Compiler σ ε}

theorem compile (sources : List Source) : Keeps (fun s => P s.pipeline) (Run.compile compiler sources) := by
  intro s h
  unfold Run.compile
  rcases compiler sources s.compiler with ⟨_ | _, _⟩ <;> exact h

variable (hP : ∀ i layout pos, Keeps (fun s : RunState σ => P s.pipeline) (resolveIn i layout pos : Run σ ε Bool))
include hP

theorem resolveAll (layouts : List Layout) : ∀ ds : List Diagnostic,
    Keeps (fun s : RunState σ => P s.pipeline) (Run.resolveAll layouts ds : Run σ ε (List Diagnostic))
  | [] => .pure []
  | d :: ds => by
    refine .bind (.bind_get fun s => ?_) fun _ => .bind (resolveAll layouts ds) fun _ => .pure _
    split
    · exact hP _ _ _
    · exact .pure _

theorem rounds : ∀ left round : Nat, Keeps (fun s => P s.pipeline) (Run.rounds compiler round left)
  | 0, _ => .bind_get fun _ => .bind (compile _) fun _ => .pure _
  | left + 1, round => by
    refine .bind_get fun s => .bind (compile _) fun ds => ?_
    split
    · exact .pure _
    · refine .bind (resolveAll hP _ ds) fun us => ?_
      split
      · exact .pure _
      · exact rounds left (round + 1)

/-- **What is true once the accesses are handed over, and is left true by every complaint, is true after a run.** -/
theorem run {s : RunState σ} (h : P s.pipeline.track) : P (stateOf (Pipeline.run compiler s)).pipeline :=
  rounds hP _ 1 ⟨s.pipeline.track, s.compiler⟩ h

end Keeps

/-! ## Pipelines -/

theorem mem_insertName {n name : String} : ∀ {names : List String}, n ∈ insertName name names ↔ n = name ∨ n ∈ names
  | [] => by simp [insertName]
  | m :: names => by
    unfold insertName
    split
    · rename_i h
      simp [h]
    · split
      · simp
      · have ih : n ∈ insertName name names ↔ n = name ∨ n ∈ names := mem_insertName
        simp only [List.mem_cons, ih]
        exact or_left_comm

theorem mem_insertNames {n : String} : ∀ {new names : List String},
    n ∈ new.foldl (fun names n => insertName n names) names ↔ n ∈ names ∨ n ∈ new
  | [], _ => by simp
  | m :: new, names => by
    rw [List.foldl_cons, mem_insertNames, mem_insertName, List.mem_cons, or_comm (a := n = m), or_assoc]

/-- **How a pipeline comes about.** The trees of its units satisfied `S` when they had been lowered, and `names` are the
properties that were lowered. -/
inductive Made (S : Tree → Prop) : List String → Pipeline → Prop
  | empty (options : PipelineOptions) : Made S [] { options }
  | add {names : List String} {p p' : Pipeline} {name : String} {t t' : Tree} {r : Lowered} (h : Made S names p)
      (hlower : lower p.options.lowering t = .ok r t') (hS : S t') (hadd : p.addUnit name t = .ok p') :
      Made S (names ++ r.properties) p'
  | putAside {names : List String} {p p' : Pipeline} {name : String} {t t' : Tree} {e : LowerError} (h : Made S names p)
      (hlower : lower p.options.lowering t = .error (.failed e) t') (hadd : p.addUnit name t = .ok p') : Made S names p'
  | run {names : List String} {p : Pipeline} {σ ε : Type} (h : Made S names p) (compiler : Compiler σ ε) (c : σ) :
      Made S names (stateOf (Pipeline.run compiler ⟨p, c⟩)).pipeline

namespace Made

variable {S : Tree → Prop} {names : List String} {p : Pipeline}

/-- **A pipeline knows the names of the properties that were lowered.** -/
theorem mem_properties (h : Made S names p) : ∀ n, n ∈ p.properties ↔ n ∈ names := by
  induction h with
  | empty => exact fun _ => Iff.rfl
  | add _ hlower _ hadd ih =>
    intro n
    unfold Pipeline.addUnit at hadd
    rw [hlower] at hadd
    cases hadd
    rw [mem_insertNames, ih, List.mem_append]
  | putAside _ hlower hadd ih =>
    unfold Pipeline.addUnit at hadd
    rw [hlower] at hadd
    cases hadd
    exact ih
  | @run names p _ _ _ compiler c ih =>
    refine Keeps.run (P := fun q => ∀ n, n ∈ q.properties ↔ n ∈ names) (fun i layout pos s hs => ?_) ih
    unfold Run.resolveIn
    split
    · exact hs
    · dsimp only
      split <;> exact hs

theorem properties_isEmpty (h : Made S names p) : p.properties.isEmpty = names.isEmpty := by
  rw [Bool.eq_iff_iff, List.isEmpty_iff, List.isEmpty_iff, List.eq_nil_iff_forall_not_mem,
    List.eq_nil_iff_forall_not_mem]
  exact forall_congr' fun n => not_congr (h.mem_properties n)

open Lowering in
/-- A pipeline of one unit with a property and an access to it. -/
theorem exists_counter : ∃ p r t', Made Tree.Proper ["count"] p ∧ lower {} counter = .ok r t' ∧ t'.Proper ∧
    p = { units := [{ name := "Counter.java", tracked := { tree := t' }, accesses := accesses counter }],
          properties := ["count"] } := by
  have hin : ∀ p, counter.isProperty p = true → ∃ c, holdsMember counter c p = true := fun p hprop => by
    by_contra hnone
    refine not_misplaced_counter p ⟨hprop, fun c => ?_⟩
    rw [Bool.eq_false_iff]
    exact fun hc => hnone ⟨c, hc⟩
  obtain ⟨r, t', hrun, t₀, done, hbegun, hprogress, -, hnames, -, haccesses⟩ :=
    ends_lower (o := {}) proper_counter apart_counter apart_counter.plainTypes hin
  have hp' := hprogress.proper (hbegun.proper proper_counter)
  have hnames : r.properties = ["count"] := hnames.trans (by decide)
  have hadd : ({} : Pipeline).addUnit "Counter.java" counter = .ok
      { units := [{ name := "Counter.java", tracked := { tree := t' }, accesses := accesses counter }],
        properties := ["count"] } := by
    unfold Pipeline.addUnit
    rw [show lower ({} : Pipeline).options.lowering counter = _ from hrun]
    dsimp only
    rw [haccesses, hnames]
    rfl
  have hmade := Made.add (.empty {}) hrun hp' hadd
  rw [hnames] at hmade
  exact ⟨_, r, t', hmade, hrun, hp', rfl⟩

end Made

end UniformAccess
